import TieredAllocator.Lib.Words
import TieredAllocator.Caches.Family

/-!
# Caches — batches

The interface of `Slabs` for several pointers at once: a caller that has looked at `remaining`
copies its batch to `push_destination` and commits it, and one that has looked at `available` copies
the batch from `pop_source` and commits.  A batch is what as many single operations would do, the
pops in reverse (`batches_agree`): the two interfaces may be mixed on the same slabs.
-/

namespace TieredAllocator
open Lib

namespace Slabs

variable {m m' : Memory} {base count cpu sc batch n : Nat} {f : Nat → Nat → List Nat}

/-- Where the pointers that are pushed go. -/
def pushDestination (m : Memory) (slab sc : Nat) : Nat :=
  slab + slabPointersOffset + 8 * (slabOffset sc + current m slab sc)

def commitPush (m : Memory) (slab sc n : Nat) : Memory :=
  setCurrent m slab sc ((current m slab sc + n) % 2 ^ 16)

/-- Where the `n` pointers on top are, in 32-bit arithmetic. -/
def popSource (m : Memory) (slab sc n : Nat) : Nat :=
  slab + slabPointersOffset + 8 * ((slabOffset sc + current m slab sc + (2 ^ 32 - n)) % 2 ^ 32)

def commitPop (m : Memory) (slab sc n : Nat) : Memory :=
  setCurrent m slab sc ((current m slab sc + (2 ^ 16 - n % 2 ^ 16)) % 2 ^ 16)

def available (m : Memory) (slab sc : Nat) : Nat := current m slab sc

def remaining (m : Memory) (slab sc : Nat) : Nat :=
  (slabCapacity sc + (2 ^ 32 - current m slab sc)) % 2 ^ 32

/-! ### The stack as an array -/

theorem stack_eq_words (m : Memory) (base cpu c : Nat) : stack m base cpu c =
    m.words (getSlabs base cpu + slabPointersOffset + 8 * slabOffset c)
      (current m (getSlabs base cpu) c) := by
  refine List.map_congr_left fun i _ => ?_
  rw [pointer, Nat.mul_add, ← Nat.add_assoc]

theorem remaining_eq {slab : Nat} (hc : sc < numSizeClasses)
    (hle : current m slab sc ≤ slabCapacity sc) :
    remaining m slab sc = slabCapacity sc - current m slab sc := by
  have hcap := slabCapacity_lt hc
  rw [remaining, show slabCapacity sc + (2 ^ 32 - current m slab sc) =
    slabCapacity sc - current m slab sc + 2 ^ 32 by omega, Nat.add_mod_right,
    Nat.mod_eq_of_lt (by omega)]

/-- A batch that there is room for. -/
theorem pushBatch_spec (hc : sc < numSizeClasses)
    (hle : current m (getSlabs base cpu) sc ≤ slabCapacity sc)
    (hn : n ≤ remaining m (getSlabs base cpu) sc) :
    let m' := commitPush (m.copy (pushDestination m (getSlabs base cpu) sc) batch (8 * n))
      (getSlabs base cpu) sc n
    stack m' base cpu sc = stack m base cpu sc ++ m.words batch n ∧
      current m' (getSlabs base cpu) sc ≤ slabCapacity sc ∧
      Memory.Wrote (Cell base cpu sc) m m' := by
  rw [remaining_eq hc hle] at hn
  have hcap := slabCapacity_lt hc
  have hhead := two_mul_numSizeClasses_le
  set slab := getSlabs base cpu with hslab
  set m₁ := m.copy (pushDestination m slab sc) batch (8 * n) with hm₁
  have hdest : pushDestination m slab sc =
      slab + slabPointersOffset + 8 * slabOffset sc + 8 * current m slab sc := by
    rw [pushDestination, Nat.mul_add, ← Nat.add_assoc]
  have hcur₁ : current m₁ slab sc = current m slab sc :=
    Memory.load_congr 2 _ fun x h₁ h₂ => Memory.copy_byte_of_not_mem (by omega)
  have hcur : current (commitPush m₁ slab sc n) slab sc = current m slab sc + n := by
    rw [commitPush, hcur₁, Nat.mod_eq_of_lt (by omega)]
    exact current_setCurrent (by omega)
  refine ⟨?_, by omega, ?_⟩
  · rw [stack_eq_words, stack_eq_words, ← hslab, hcur, commitPush, setCurrent,
      Memory.words_congr fun x h₁ h₂ => Memory.store_byte_of_not_mem (by omega),
      Memory.words_append, ← hdest, Memory.words_copy]
    rw [Memory.words_congr fun x h₁ h₂ => Memory.copy_byte_of_not_mem (by omega)]
  · exact (Memory.Wrote.copy m _ (.inr ⟨by omega, by omega⟩)).trans
      (Memory.Wrote.store _ _ (.inl ⟨rfl, rfl⟩))

/-- A batch that is there. -/
theorem popBatch_spec (hc : sc < numSizeClasses)
    (hle : current m (getSlabs base cpu) sc ≤ slabCapacity sc)
    (hn : n ≤ available m (getSlabs base cpu) sc)
    (hd : batch + 8 * n ≤ getSlabs base cpu ∨ getSlabs base cpu + slabStrideBytes ≤ batch) :
    let m' := commitPop (m.copy batch (popSource m (getSlabs base cpu) sc n) (8 * n))
      (getSlabs base cpu) sc n
    stack m base cpu sc = stack m' base cpu sc ++ m'.words batch n ∧
      current m' (getSlabs base cpu) sc ≤ slabCapacity sc := by
  have hcap := slabCapacity_lt hc
  have hhead := two_mul_numSizeClasses_le
  have hoff := slabOffset_le (show sc < numSizeClasses from hc)
  have htotal := slabOffset_numSizeClasses_lt
  have hraw := slabRawByteSize_le
  have hn : n ≤ current m (getSlabs base cpu) sc := hn
  set slab := getSlabs base cpu with hslab
  have hsource : popSource m slab sc n =
      slab + slabPointersOffset + 8 * slabOffset sc + 8 * (current m slab sc - n) := by
    rw [popSource, show slabOffset sc + current m slab sc + (2 ^ 32 - n) =
      slabOffset sc + (current m slab sc - n) + 2 ^ 32 by omega, Nat.add_mod_right,
      Nat.mod_eq_of_lt (by omega), Nat.mul_add, ← Nat.add_assoc]
  set m₁ := m.copy batch (popSource m slab sc n) (8 * n) with hm₁
  have hcur₁ : current m₁ slab sc = current m slab sc :=
    Memory.load_congr 2 _ fun x h₁ h₂ => Memory.copy_byte_of_not_mem (by omega)
  have hcur : current (commitPop m₁ slab sc n) slab sc = current m slab sc - n := by
    rw [commitPop, hcur₁, Nat.mod_eq_of_lt (show n < 2 ^ 16 by omega),
      show current m slab sc + (2 ^ 16 - n) = current m slab sc - n + 2 ^ 16 by omega,
      Nat.add_mod_right, Nat.mod_eq_of_lt (by omega)]
    exact current_setCurrent (by omega)
  refine ⟨?_, by omega⟩
  rw [stack_eq_words, stack_eq_words, ← hslab, hcur, commitPop, setCurrent,
    Memory.words_congr (a := batch) fun x h₁ h₂ => Memory.store_byte_of_not_mem (by omega),
    Memory.words_copy, hsource,
    Memory.words_congr fun x h₁ h₂ => Memory.store_byte_of_not_mem (by omega),
    Memory.words_congr fun x h₁ h₂ => Memory.copy_byte_of_not_mem (by omega),
    ← Memory.words_append, Nat.sub_add_cancel hn]

/-- A copy to outside the slabs. -/
theorem Represents.copy_out (h : Represents base count m f) {a b k : Nat}
    (hd : a + k ≤ base ∨ base + count * slabStrideBytes ≤ a) :
    Represents base count (m.copy a b k) f := by
  intro cpu hcpu c hc
  obtain ⟨hle, hst⟩ := h cpu hcpu c hc
  have hm : ∀ x, base ≤ x → x < base + count * slabStrideBytes → (m.copy a b k).byte x = m.byte x :=
    fun x h₁ h₂ => Memory.copy_byte_of_not_mem (by omega)
  obtain ⟨hst', hcur⟩ := stack_congr hle fun a' l hcell => by
    obtain ⟨hlow, hhigh⟩ := hcell.region hcpu hc
    exact Memory.load_congr l a' fun x h₁ h₂ => hm x (hlow.trans h₁) (h₂.trans_le hhigh)
  exact ⟨hcur ▸ hle, hst'.trans hst⟩

/-! ### Single operations -/

/-- `n` pushes that there is room for, on the lists. -/
theorem answers_push (hcpu : cpu < count) {ps : List Nat}
    (hroom : (f cpu sc).length + ps.length ≤ slabCapacity sc) :
    answers (SlabOp.onLists count) f (ps.map (.push cpu sc)) =
      (List.replicate ps.length (.pushed true),
        Function.update f cpu (Function.update (f cpu) sc (f cpu sc ++ ps))) := by
  induction ps generalizing f with
  | nil => simp [answers]
  | cons p ps ih =>
      have hlt : (f cpu sc).length < slabCapacity sc := by
        rw [List.length_cons] at hroom
        omega
      have hone : SlabOp.onLists count f (.push cpu sc p) = (.pushed true,
          Function.update f cpu (Function.update (f cpu) sc (f cpu sc ++ [p]))) := by
        have hslab : ¬ count ≤ (SlabOp.push cpu sc p).cpu := not_le.mpr hcpu
        rw [SlabOp.onLists, if_neg hslab]
        simp only [pushBounded, if_pos hlt, SlabOp.cpu, SlabOp.sc]
      rw [List.map_cons, answers, hone, ih (by simp at hroom ⊢; omega)]
      simp [List.replicate_succ]

/-- The pops of `ps` from the top of the lists. -/
theorem answers_pop (hcpu : cpu < count) {l ps : List Nat} (hl : f cpu sc = l ++ ps) :
    answers (SlabOp.onLists count) f (List.replicate ps.length (.pop cpu sc)) =
      (ps.reverse.map .popped, Function.update f cpu (Function.update (f cpu) sc l)) := by
  induction ps using List.reverseRecOn generalizing f with
  | nil =>
      rw [List.append_nil] at hl
      simp [answers, ← hl]
  | append_singleton ps p ih =>
      have hone : SlabOp.onLists count f (.pop cpu sc) = (.popped p,
          Function.update f cpu (Function.update (f cpu) sc (l ++ ps))) := by
        have hslab : ¬ count ≤ (SlabOp.pop cpu sc).cpu := not_le.mpr hcpu
        rw [SlabOp.onLists, if_neg hslab]
        simp only [popTop, hl, ← List.append_assoc, List.dropLast_concat, SlabOp.cpu, SlabOp.sc]
        simp
      rw [List.length_append, List.length_singleton, List.replicate_succ, answers, hone,
        ih (by simp)]
      simp

/-! ### Runs -/

deriving instance DecidableEq for SlabOp

inductive BatchOp where
  | single (o : SlabOp)
  /-- the batch of `n` pointers at `batch` is pushed -/
  | push (cpu sc batch n : Nat)
  /-- `n` pointers are popped into the buffer at `batch` -/
  | pop (cpu sc batch n : Nat)

namespace BatchOp

/-- What the interface asks of its callers; their buffers lie outside the slabs. -/
def Allowed (base count : Nat) (m : Memory) : BatchOp → Prop
  | .single o => o.Valid
  | .push cpu sc _ n => cpu < count ∧ 1 ≤ sc ∧ sc < numSizeClasses ∧
      n ≤ remaining m (getSlabs base cpu) sc
  | .pop cpu sc batch n => cpu < count ∧ 1 ≤ sc ∧ sc < numSizeClasses ∧
      n ≤ available m (getSlabs base cpu) sc ∧
      (batch + 8 * n ≤ base ∨ base + count * slabStrideBytes ≤ batch)

instance : (o : BatchOp) → Decidable (o.Allowed base count m)
  | .single o => inferInstanceAs (Decidable o.Valid)
  | .push cpu sc _ n => inferInstanceAs (Decidable (cpu < count ∧ 1 ≤ sc ∧ sc < numSizeClasses ∧
      n ≤ remaining m (getSlabs base cpu) sc))
  | .pop cpu sc batch n => inferInstanceAs (Decidable (cpu < count ∧ 1 ≤ sc ∧
      sc < numSizeClasses ∧ n ≤ available m (getSlabs base cpu) sc ∧
      (batch + 8 * n ≤ base ∨ base + count * slabStrideBytes ≤ batch)))

def apply (base count : Nat) (m : Memory) : BatchOp → Memory
  | .single o => (o.apply base count m).2
  | .push cpu sc batch n =>
      let slab := getSlabs base cpu
      commitPush (m.copy (pushDestination m slab sc) batch (8 * n)) slab sc n
  | .pop cpu sc batch n =>
      let slab := getSlabs base cpu
      commitPop (m.copy batch (popSource m slab sc n) (8 * n)) slab sc n

/-- The single operations that it stands for, and their answers. -/
def shown (base count : Nat) (m : Memory) : BatchOp → Option (List SlabOp × List SlabAnswer)
  | .single o => some ([o], [(o.apply base count m).1])
  | .push cpu sc batch n =>
      some ((m.words batch n).map (.push cpu sc), List.replicate n (.pushed true))
  | .pop cpu sc batch n => some (List.replicate n (.pop cpu sc),
      ((((.pop cpu sc batch n : BatchOp).apply base count m).words batch n).reverse).map .popped)

def system (base count : Nat) : System Memory BatchOp where
  allowed m o := o.Allowed base count m
  step m o := some (o.apply base count m)

instance (m : Memory) (o : BatchOp) : Decidable ((system base count).allowed m o) :=
  inferInstanceAs (Decidable (o.Allowed base count m))

end BatchOp

/-- **One step** does what its single operations do on the lists. -/
theorem batch_step {o : BatchOp} (h : Represents base count m f) (ha : o.Allowed base count m) :
    ∃ os as, o.shown base count m = some (os, as) ∧ (∀ s ∈ os, s.Valid) ∧
      (answers (SlabOp.onLists count) f os).1 = as ∧
      Represents base count (o.apply base count m) (answers (SlabOp.onLists count) f os).2 := by
  cases o with
  | single o =>
      have ho : o.Valid := ha
      obtain ⟨hans, hrep, -⟩ := apply_spec h ho
      exact ⟨[o], _, rfl, by simpa using ho, by rw [answers, answers, hans], hrep⟩
  | push cpu sc batch n =>
      obtain ⟨hcpu, hpos, hc, hn⟩ := ha
      obtain ⟨hle, hst⟩ := h cpu hcpu sc hc
      obtain ⟨hst', hle', hw⟩ := @pushBatch_spec m base cpu sc batch n hc hle hn
      have hroom : (f cpu sc).length + (m.words batch n).length ≤ slabCapacity sc := by
        rw [remaining_eq hc hle] at hn
        rw [← hst, stack_length, Memory.words_length]
        omega
      have hans := answers_push (f := f) hcpu hroom
      refine ⟨_, _, rfl, fun s hs => ?_, ?_, ?_⟩
      · obtain ⟨p, hp, rfl⟩ := List.mem_map.mp hs
        obtain ⟨i, -, rfl⟩ := List.mem_map.mp hp
        exact ⟨hpos, hc, (Memory.load_lt m 8 _).trans_le (by norm_num)⟩
      · rw [hans, Memory.words_length]
      · rw [hans]
        exact h.update hcpu hc hw hle' (hst'.trans (by rw [hst]))
  | pop cpu sc batch n =>
      obtain ⟨hcpu, hpos, hc, hn, hd⟩ := ha
      obtain ⟨hle, hst⟩ := h cpu hcpu sc hc
      have hstride := getSlabs_add_le base hcpu
      have hbelow : base ≤ getSlabs base cpu := Nat.le_add_right _ _
      have hstop : getSlabs base count = base + count * slabStrideBytes := rfl
      have hout : batch + 8 * n ≤ getSlabs base cpu ∨
          getSlabs base cpu + slabStrideBytes ≤ batch := by omega
      obtain ⟨hst', hle'⟩ := popBatch_spec hc hle hn hout
      have hans := answers_pop (f := f) hcpu (hst.symm.trans hst')
      rw [Memory.words_length] at hans
      refine ⟨_, _, rfl, fun s hs => ?_, ?_, ?_⟩
      · obtain ⟨-, rfl⟩ := List.mem_replicate.mp hs
        exact ⟨hpos, hc⟩
      · rw [hans]
        rfl
      · rw [hans]
        exact (h.copy_out hd).update hcpu hc (Memory.Wrote.store _ _ (.inl ⟨rfl, rfl⟩)) hle' rfl

/-- **Batches agree with single operations.**  From zeroed slabs, in each run that mixes single
pushes and pops with batches for which there is room, or which are there: the same single operations
one after the other, a batch that is popped from the top down, get the same answers from the lists
and leave the same stacks. -/
theorem batches_agree
    (hzero : ∀ a, base ≤ a → a < base + count * slabStrideBytes → m.byte a = 0)
    {ops : List BatchOp} (r : (BatchOp.system base count).Run m ops m') :
    let done := (BatchOp.system base count).trace (BatchOp.shown base count) m ops
    let os := (done.map Prod.fst).flatten
    (∀ o ∈ os, o.Valid) ∧
      (answers (SlabOp.onLists count) (fun _ _ => []) os).1 = (done.map Prod.snd).flatten ∧
      Represents base count m' (answers (SlabOp.onLists count) (fun _ _ => []) os).2 := by
  have hall : ∀ {m ops m' f}, (BatchOp.system base count).Run m ops m' →
      Represents base count m f →
      let done := (BatchOp.system base count).trace (BatchOp.shown base count) m ops
      let os := (done.map Prod.fst).flatten
      (∀ o ∈ os, o.Valid) ∧
        (answers (SlabOp.onLists count) f os).1 = (done.map Prod.snd).flatten ∧
        Represents base count m' (answers (SlabOp.onLists count) f os).2 := by
    intro m ops m' f r
    induction r generalizing f with
    | refl m =>
        intro h
        exact ⟨fun o ho => absurd ho List.not_mem_nil, rfl, h⟩
    | @more m m₁ m' o ops ha hs _ ih =>
        intro h
        obtain rfl := Option.some.inj hs
        obtain ⟨os, as, hshown, hvalid, hans, hrep⟩ := batch_step h ha
        obtain ⟨hvalid', hans', hrep'⟩ := ih hrep
        simp only [System.trace, hshown, hs, Option.toList_some, Option.elim_some,
          List.singleton_append, List.map_cons, List.flatten_cons, answers_append]
        refine ⟨fun o ho => ?_, by rw [hans, hans'], hrep'⟩
        exact (List.mem_append.mp ho).elim (hvalid o) (hvalid' o)
  exact hall r (represents_zero hzero)

/-- Two pointers are pushed as a batch, one is popped alone, and one as a batch. -/
theorem batches_agree_sample : ∃ m',
    (BatchOp.system 4096 1).Run ((Memory.zero.store 8 8 16).store 16 8 32)
      [.push 0 1 8 2, .single (.pop 0 1), .pop 0 1 8 1] m' ∧
      Represents 4096 1 m' (answers (SlabOp.onLists 1) (fun _ _ => [])
        [.push 0 1 16, .push 0 1 32, .pop 0 1, .pop 0 1]).2 := by
  set m := (Memory.zero.store 8 8 16).store 16 8 32 with hm
  have hrun : (((BatchOp.system 4096 1).replay m
      [.push 0 1 8 2, .single (.pop 0 1), .pop 0 1 8 1]).isSome) = true := by decide +kernel
  have hdone : ((BatchOp.system 4096 1).trace (BatchOp.shown 4096 1) m
      [.push 0 1 8 2, .single (.pop 0 1), .pop 0 1 8 1]).map Prod.fst =
        [[.push 0 1 16, .push 0 1 32], [.pop 0 1], [.pop 0 1]] := by decide +kernel
  obtain ⟨m', hm'⟩ := Option.isSome_iff_exists.mp hrun
  have hzero : ∀ a, 4096 ≤ a → a < 4096 + 1 * slabStrideBytes → m.byte a = 0 := by
    intro a h₁ _
    rw [hm, Memory.store_byte_of_not_mem (by omega), Memory.store_byte_of_not_mem (by omega)]
    rfl
  have hr := System.Run.of_replay hm'
  have hagree := (batches_agree hzero hr).2.2
  rw [hdone] at hagree
  exact ⟨m', hr, hagree⟩

end Slabs

end TieredAllocator
