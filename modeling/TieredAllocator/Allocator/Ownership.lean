import TieredAllocator.Allocator.Definitions

/-!
# Allocator — ownership

What the programs of the allocator do with the objects they hold, by the precondition calculus
over `Held`: an object is passed on only by a call that holds it (`Pre`), under its own class, and
a batch that a tier takes in part stays held in part.  Each program has one specification, the sum
of what it holds before and after; `allocate` ends with nothing but its result
(`allocate_wp`), `deallocate` with nothing at all (`deallocate_wp`).
-/

namespace TieredAllocator
open Lib

theorem inClass_le {f : Nat → Multiset Nat} {c : Nat} {ps : Multiset Nat} :
    inClass c ps ≤ f ↔ ps ≤ f c := by
  constructor
  · intro h
    simpa [inClass] using h c
  · intro h d
    by_cases hd : d = c
    · subst hd
      simpa [inClass] using h
    · simp [inClass, hd]

theorem inClass_add (c : Nat) (ps qs : Multiset Nat) :
    inClass c (ps + qs) = inClass c ps + inClass c qs := by
  funext d
  by_cases hd : d = c
  · subst hd; simp [inClass]
  · simp [inClass, hd]

theorem inClass_cons (c p : Nat) (ps : List Nat) :
    inClass c ((p :: ps : List Nat) : Multiset Nat) = inClass c {p} + inClass c ps := by
  rw [← inClass_add]
  rfl

theorem inClass_append (c : Nat) (ps qs : List Nat) :
    inClass c ((ps ++ qs : List Nat) : Multiset Nat) = inClass c ps + inClass c qs := by
  rw [← inClass_add, Multiset.coe_add]

@[simp] theorem inClass_nil (c : Nat) : inClass c (([] : List Nat) : Multiset Nat) = 0 :=
  Pi.single_zero c

/-- A batch of `i + 1` pointers ends with the one at `i`. -/
theorem take_succ_eq {l : List Nat} {i : Nat} (hi : i < l.length) :
    l.take (i + 1) = l.take i ++ [l.getD i 0] := by
  rw [List.take_add_one, List.getD_eq_getElem?_getD, List.getElem?_eq_getElem hi]
  rfl

/-! ### The rules -/

/-- What a call must hold to do an action. -/
def Pre (g : Held) : Action → Prop
  | .slabPop sc => sc < numSizeClasses
  | .slabPush sc ptr => sc < numSizeClasses ∧ ptr ∈ g.objs sc
  | .removeRange _ _ => True
  | .insertRange sc batch => (batch : Multiset Nat) ≤ g.objs sc
  | .centralAllocate _ => True
  | .spanFor ptr => ∃ c, ptr ∈ g.objs c
  | .spanSize s => ∃ c p, p ∈ g.objs c ∧ g.route p = some s
  | .centralDeallocate sc s ptr => ptr ∈ g.objs sc ∧ g.route ptr = some s

/-- What it may rely on of the answer. -/
def Ans (g : Held) : (a : Action) → Answer a → Prop
  | .removeRange _ n, (batch : List Nat) => batch.length ≤ n ∧ ∀ p ∈ batch, p ≠ 0
  | .insertRange _ batch, (n : Nat) => n ≤ batch.length
  | .spanFor _, (s : Option SpanId) => ∃ t, s = some t
  | .spanSize s, (size : Nat) => ∀ c p, p ∈ g.objs c → g.route p = some s →
      1 ≤ c ∧ c < numSizeClasses ∧ size = (sizeClass c).size
  | _, _ => True

abbrev rules : Prog.Rules Action Answer Held := ⟨Pre, Ans, Held.track⟩

/-- What a call holds when it returns. -/
def Done : (c : Call) → Held → Result c → Prop
  | .allocate n, g, p =>
      (p = (0 : Nat) ∧ g.objs = 0 ∧ (g.starved = true ∨ maxSize < n)) ∨
        (p ≠ (0 : Nat) ∧ n ≤ maxSize ∧ g.objs = inClass (roundSizeClass n).2 {p})
  | .deallocate _, g, _ => g.objs = 0

namespace Held

variable {g g' : Held} {c p : Nat} {ps qs : Multiset Nat}

/-- What is lost and what is left make up what was held. -/
theorem lose_add (h : ps ≤ g.objs c) : (g.lose c ps).objs + inClass c ps = g.objs :=
  funext fun d => tsub_add_cancel_of_le (inClass_le.mpr h d)

end Held

namespace Program
open Prog

variable {g : Held} {sc ptr n : Nat} {ps batch : List Nat} {s : SpanId}

/-! ### Actions -/

theorem slabPop_wp {Q : Held → Nat → Prop} (hsc : sc < numSizeClasses) (h0 : Q g 0)
    (h : ∀ p g', p ≠ 0 → g'.objs = inClass sc {p} + g.objs → Q g' p) :
    (slabPop sc).wp rules Q g := by
  refine ⟨hsc, fun p _ => ?_⟩
  show Q (g.track (.slabPop sc) p) p
  by_cases hp : p = (0 : Nat)
  · subst hp
    exact h0
  · rw [Held.track, if_neg hp]
    exact h p _ hp rfl

theorem slabPush_wp {Q : Held → Bool → Prop} (hsc : sc < numSizeClasses) (hp : ptr ∈ g.objs sc)
    (h0 : Q g false) (h : ∀ g', g'.objs + inClass sc {ptr} = g.objs → Q g' true) :
    (slabPush sc ptr).wp rules Q g := by
  refine ⟨⟨hsc, hp⟩, fun ok _ => ?_⟩
  show Q (g.track (.slabPush sc ptr) ok) ok
  cases ok with
  | false => exact h0
  | true => exact h _ (Held.lose_add (Multiset.singleton_le.mpr hp))

theorem removeRange_wp {Q : Held → List Nat → Prop}
    (h : ∀ ps : List Nat, ps.length ≤ n → (∀ p ∈ ps, p ≠ 0) → Q (g.gain sc ps) ps) :
    (removeRange sc n).wp rules Q g :=
  ⟨trivial, fun ps hps => h ps hps.1 hps.2⟩

theorem insertRange_wp {Q : Held → Nat → Prop} (hb : (batch : Multiset Nat) ≤ g.objs sc)
    (h : ∀ g' n, n ≤ batch.length → g'.objs + inClass sc (batch.take n) = g.objs → Q g' n) :
    (insertRange sc batch).wp rules Q g := by
  refine ⟨hb, fun n hn => h _ n hn (Held.lose_add ?_)⟩
  exact (Multiset.coe_le.mpr (List.take_sublist n batch).subperm).trans hb

theorem centralAllocate_wp {Q : Held → Nat → Prop} (h0 : Q { g with starved := true } 0)
    (h : ∀ p, p ≠ 0 → Q (g.gain sc {p}) p) : (centralAllocate sc).wp rules Q g := by
  refine ⟨trivial, fun p _ => ?_⟩
  show Q (g.track (.centralAllocate sc) p) p
  by_cases hp : p = (0 : Nat)
  · subst hp
    exact h0
  · rw [Held.track, if_neg hp]
    exact h p hp

/-! ### Batches -/

/-- `allocate_batch` adds what it returns; it returns nothing only when the list had nothing. -/
theorem allocateBatch_wp (sc count : Nat) (g : Held) :
    (allocateBatch sc count).wp rules (fun g' (ps : List Nat) => g'.objs = inClass sc ps + g.objs ∧
      (∀ p ∈ ps, p ≠ 0) ∧ (ps = [] → count = 0 ∨ g'.starved = true)) g := by
  induction count generalizing g with
  | zero => exact ⟨by simp, by simp, fun _ => .inl rfl⟩
  | succ count ih =>
      refine wp_bind.mpr (centralAllocate_wp ?_ fun p hp => ?_)
      · exact ⟨by simp, by simp, fun _ => .inr rfl⟩
      · rw [if_neg hp]
        refine wp_seq (ih _) fun g' ps h => ?_
        obtain ⟨hobjs, hne, -⟩ := h
        refine ⟨?_, fun q hq => ?_, fun h => by cases h⟩
        · rw [hobjs, inClass_cons]
          show inClass sc ps + (inClass sc {p} + g.objs) = _
          abel
        · rcases List.mem_cons.mp hq with rfl | hq
          · exact hp
          · exact hne q hq

/-- `CentralFreeList::deallocate` of an object that is held. -/
theorem centralFree_wp (hne : ptr ≠ 0) (hp : ptr ∈ g.objs sc) :
    (centralFree sc ptr).wp rules (fun g' _ => g'.objs + inClass sc {ptr} = g.objs) g := by
  rw [centralFree, if_neg hne]
  refine wp_bind.mpr ⟨⟨sc, hp⟩, fun s hs => ?_⟩
  obtain ⟨t, rfl⟩ := hs
  refine ⟨⟨hp, by simp [Held.track]⟩, fun _ _ => ?_⟩
  exact Held.lose_add (Multiset.singleton_le.mpr hp)

theorem deallocateBatch_wp (hne : ∀ p ∈ ps, p ≠ 0) (hps : (ps : Multiset Nat) ≤ g.objs sc) :
    (deallocateBatch sc ps).wp rules (fun g' _ => g'.objs + inClass sc ps = g.objs) g := by
  induction ps generalizing g with
  | nil => simp [deallocateBatch]
  | cons p ps ih =>
      have hmem : p ∈ g.objs sc := Multiset.mem_of_le hps (by simp)
      refine wp_seq (centralFree_wp (hne p (by simp)) hmem) fun g₁ _ hg₁ => ?_
      have hrest : (ps : Multiset Nat) ≤ g₁.objs sc := by
        have hle : inClass sc ((p :: ps : List Nat) : Multiset Nat) ≤ g.objs := inClass_le.mpr hps
        rw [inClass_cons, ← hg₁, add_comm (inClass sc {p})] at hle
        exact inClass_le.mp (le_of_add_le_add_right hle)
      refine wp_mono (ih (fun q hq => hne q (by simp [hq])) hrest) fun g₂ _ hg₂ => ?_
      rw [inClass_cons, ← hg₁, ← hg₂]
      abel

/-- `release_batch`: the transfer cache takes a part, the central list the rest. -/
theorem releaseBatch_wp (hne : ∀ p ∈ batch, p ≠ 0) (hb : (batch : Multiset Nat) ≤ g.objs sc) :
    (releaseBatch sc batch).wp rules (fun g' _ => g'.objs + inClass sc batch = g.objs) g := by
  refine wp_bind.mpr (insertRange_wp hb fun g₁ n hn hg₁ => ?_)
  have hsplit : inClass sc (batch : Multiset Nat) =
      inClass sc (batch.take n) + inClass sc (batch.drop n) := by
    rw [← inClass_append, List.take_append_drop]
  by_cases hlt : n < batch.length
  · rw [if_pos hlt]
    have hrest : (batch.drop n : Multiset Nat) ≤ g₁.objs sc := by
      have hle := inClass_le.mpr hb
      rw [hsplit, ← hg₁, add_comm] at hle
      exact inClass_le.mp (le_of_add_le_add_right hle)
    refine wp_mono (deallocateBatch_wp (fun p hp => hne p (List.mem_of_mem_drop hp)) hrest)
      fun g₂ _ hg₂ => ?_
    rw [hsplit, ← hg₁, ← hg₂]
    abel
  · rw [if_neg hlt]
    have : n = batch.length := le_antisymm hn (not_lt.mp hlt)
    rwa [this, List.take_length] at hg₁

/-- `refill_batch`. -/
theorem refillBatch_wp (sc : Nat) {count : Nat} (hc : 1 ≤ count) (g : Held) :
    (refillBatch sc count).wp rules (fun g' (ps : List Nat) => g'.objs = inClass sc ps + g.objs ∧
      (∀ p ∈ ps, p ≠ 0) ∧ (ps = [] → g'.starved = true)) g := by
  refine wp_bind.mpr (removeRange_wp fun ps _ hne => ?_)
  by_cases h0 : ps.length = 0
  · rw [if_pos h0]
    obtain rfl := List.length_eq_zero_iff.mp h0
    refine wp_mono (allocateBatch_wp sc count _) fun g' qs h => ⟨?_, h.2.1, fun hq => ?_⟩
    · rw [h.1, Held.gain, inClass_nil, zero_add]
    · exact (h.2.2 hq).resolve_left (by omega)
  · rw [if_neg h0]
    exact ⟨rfl, hne, fun h => absurd (by rw [h]; rfl) h0⟩

/-- The loop that republishes `batch[0 .. got)` passes all of it on. -/
theorem republish_wp (hsc : sc < numSizeClasses) (hne : ∀ p ∈ batch, p ≠ 0) {got : Nat}
    (hgot : got ≤ batch.length) (hb : (batch.take got : Multiset Nat) ≤ g.objs sc) :
    (republish sc batch got).wp rules
      (fun g' _ => g'.objs + inClass sc (batch.take got) = g.objs) g := by
  induction got generalizing g with
  | zero => simp [republish]
  | succ got ih =>
      have hlast := take_succ_eq hgot
      have hsplit : inClass sc (batch.take (got + 1) : Multiset Nat) =
          inClass sc (batch.take got) + inClass sc {batch.getD got 0} := by
        rw [hlast, inClass_append]
        rfl
      have hmem : batch.getD got 0 ∈ g.objs sc := Multiset.mem_of_le hb (by rw [hlast]; simp)
      refine wp_bind.mpr (slabPush_wp hsc hmem ?_ fun g₁ hg₁ => ?_)
      · -- the slab is full: what is left of the batch is released
        exact releaseBatch_wp (fun p hp => hne p (List.mem_of_mem_take hp)) hb
      · have hrest : (batch.take got : Multiset Nat) ≤ g₁.objs sc := by
          have hle := inClass_le.mpr hb
          rw [hsplit, ← hg₁] at hle
          exact inClass_le.mp (le_of_add_le_add_right hle)
        refine wp_mono (ih (Nat.le_of_succ_le hgot) hrest) fun g₂ _ hg₂ => ?_
        rw [hsplit, ← hg₁, ← hg₂]
        abel

/-! ### The two calls -/

/-- **`allocate`** begins with nothing and ends with its result, or with nothing. -/
theorem allocate_wp (n : Nat) : (allocate n).wp rules (Done (.allocate n)) {} := by
  rcases Nat.lt_or_ge maxSize n with hn | hn
  · -- a large request
    rw [allocate, roundSizeClass_of_gt hn]
    exact .inl ⟨rfl, rfl, .inr hn⟩
  obtain ⟨hsc, h₁, h₂, -, -⟩ := roundSizeClass_spec hn
  obtain ⟨hsize, -, -, -, hbatch, -⟩ := sizeClass_ok h₁ h₂
  have hne : (roundSizeClass n).1.size ≠ 0 := by rw [hsc]; omega
  simp only [allocate, if_neg hne]
  refine wp_bind.mpr (slabPop_wp h₂ ?_ fun p g hp hg => ?_)
  · rw [if_neg (not_not.mpr rfl)]
    refine wp_seq (refillBatch_wp _ (by rw [hsc]; exact hbatch) _) fun g batch h => ?_
    obtain ⟨hobjs, hnz, hstarved⟩ := h
    rw [show ({} : Held).objs = 0 from rfl, add_zero] at hobjs
    by_cases h0 : batch.length = 0
    · rw [if_pos h0]
      obtain rfl := List.length_eq_zero_iff.mp h0
      exact .inl ⟨rfl, by rw [hobjs, inClass_nil], .inl (hstarved rfl)⟩
    · rw [if_neg h0]
      obtain ⟨got, hgot⟩ := Nat.exists_eq_succ_of_ne_zero h0
      have hlast : batch = batch.take got ++ [batch.getD got 0] := by
        rw [← take_succ_eq (show got < batch.length by omega)]
        exact (List.take_of_length_le hgot.le).symm
      have hmem : batch.getD got 0 ∈ batch := by
        rw [List.getD_eq_getElem?_getD, List.getElem?_eq_getElem (show got < batch.length by omega)]
        exact List.getElem_mem _
      have hsplit : inClass (roundSizeClass n).2 (batch : Multiset Nat) =
          inClass (roundSizeClass n).2 (batch.take got) +
            inClass (roundSizeClass n).2 {batch.getD got 0} := by
        conv_lhs => rw [hlast]
        rw [inClass_append]
        rfl
      rw [hgot, Nat.succ_sub_one]
      have hle : (batch.take got : Multiset Nat) ≤ g.objs (roundSizeClass n).2 := by
        rw [← inClass_le, hobjs, hsplit]
        exact le_self_add
      refine wp_seq (republish_wp h₂ hnz (by omega) hle) fun g' _ hg' => ?_
      refine .inr ⟨hnz _ hmem, hn, ?_⟩
      rw [hobjs, hsplit, add_comm] at hg'
      exact add_left_cancel hg'
  · rw [if_pos hp]
    exact .inr ⟨hp, hn, by rw [hg]; exact add_zero _⟩

/-- The loop that drains a slab adds what it appends. -/
theorem drain_wp (hsc : sc < numSizeClasses) (left : Nat) (batch : List Nat) (g : Held) :
    (drain sc left batch).wp rules (fun g' out => ∃ new, out = batch ++ new ∧
      (∀ p ∈ new, p ≠ 0) ∧ g'.objs = inClass sc new + g.objs) g := by
  induction left generalizing batch g with
  | zero => exact ⟨[], by simp, by simp, by simp⟩
  | succ left ih =>
      refine wp_bind.mpr (slabPop_wp hsc ?_ fun p g₁ hp hg₁ => ?_)
      · exact ⟨[], by simp, by simp, by simp⟩
      · rw [if_neg hp]
        refine wp_mono (ih (batch ++ [p]) g₁) fun g' out h => ?_
        obtain ⟨new, rfl, hne, hobjs⟩ := h
        refine ⟨p :: new, by simp, fun q hq => ?_, ?_⟩
        · rcases List.mem_cons.mp hq with rfl | hq
          · exact hp
          · exact hne q hq
        · rw [hobjs, hg₁, inClass_cons]
          abel

/-- The slow end of `deallocate` passes the object on. -/
theorem deallocateSlow_wp (hsc : sc < numSizeClasses) (hne : ptr ≠ 0) {size : Nat}
    (hg : g.objs = inClass sc {ptr}) :
    (deallocateSlow sc size ptr).wp rules (fun g' _ => g'.objs = 0) g := by
  refine wp_seq (drain_wp hsc size [] g) fun g₁ batch h => ?_
  obtain ⟨drained, hbatch, hnz, hobjs⟩ := h
  rw [List.nil_append] at hbatch
  subst hbatch
  have hend : ∀ g₂ : Held, g₂.objs = inClass sc {ptr} →
      ((slabPush sc ptr) >>= fun ok => if ok = true then pure () else centralFree sc ptr).wp rules
        (fun g' _ => g'.objs = 0) g₂ := by
    intro g₂ hg₂
    have hmem : ptr ∈ g₂.objs sc := by rw [hg₂]; simp [inClass]
    refine wp_bind.mpr (slabPush_wp hsc hmem ?_ fun g₃ hg₃ => ?_)
    · refine wp_mono (centralFree_wp hne hmem) fun g₃ _ hg₃ => ?_
      rw [hg₂] at hg₃
      exact add_eq_right.mp hg₃
    · rw [hg₂] at hg₃
      exact add_eq_right.mp hg₃
  by_cases h0 : 0 < batch.length
  · rw [if_pos h0]
    have hle : (batch : Multiset Nat) ≤ g₁.objs sc := by
      rw [← inClass_le, hobjs]
      exact le_self_add
    refine wp_seq (releaseBatch_wp hnz hle) fun g₂ _ hg₂ => hend g₂ ?_
    rw [hobjs, hg, add_comm] at hg₂
    exact add_left_cancel hg₂
  · rw [if_neg h0]
    obtain rfl := List.length_eq_zero_iff.mp (Nat.eq_zero_of_not_pos h0)
    refine hend g₁ ?_
    rw [hobjs, inClass_nil, zero_add, hg]

/-- **`deallocate`** begins with the block and ends with nothing. -/
theorem deallocate_wp (hne : ptr ≠ 0) :
    (deallocate ptr).wp rules (Done (.deallocate ptr)) (({} : Held).gain sc {ptr}) := by
  have hobjs : (({} : Held).gain sc {ptr}).objs = inClass sc {ptr} := add_zero _
  have hmem : ptr ∈ (({} : Held).gain sc {ptr}).objs sc := by rw [hobjs]; simp [inClass]
  refine wp_bind.mpr ⟨⟨sc, hmem⟩, fun s hs => ?_⟩
  obtain ⟨t, rfl⟩ := hs
  refine wp_bind.mpr ⟨⟨sc, ptr, hmem, by simp [Held.track]⟩, fun size hsize => ?_⟩
  obtain ⟨h₁, h₂, rfl⟩ := hsize sc ptr hmem (by simp [Held.track])
  have hpos := (sizeClass_ok h₁ h₂).1
  simp only [wp_done, sizeClassToIdx_size h₂]
  rw [if_neg (by omega)]
  refine wp_bind.mpr (slabPush_wp h₂ hmem ?_ fun g' hg' => ?_)
  · exact deallocateSlow_wp h₂ hne hobjs
  · exact add_eq_right.mp (hg'.trans hobjs)

end Program

end TieredAllocator
