import TieredAllocator.Lib.Memory
import TieredAllocator.Lib.Runs

/-!
# Library — a heap as its clients see it

`Heap` is what an allocator is for: each block in use has bytes of its own, which nobody but the
client that writes into the block changes.  It has no addresses to reuse and no bookkeeping; a block
comes into being apart from the others, with whatever bytes (`Event.grant`), and it is gone when it
is given back.  `Heap.system` lets any number of threads ask for blocks and give them back.

A memory `Holds` a heap when each block has its bytes there.  What does not touch the blocks keeps
it (`Holds.congr`), and so do a write (`Holds.write`), a new block (`Holds.grant`) and the end of
one (`Holds.forget`).
-/

namespace TieredAllocator.Lib

/-! ### Reading and writing bytes -/

namespace Memory

variable {m m' : Memory} {a b k n v : Nat}

/-- The `n` bytes from `a`. -/
def read (m : Memory) (a n : Nat) : List UInt8 := (List.range n).map fun i => m.byte (a + i)

/-- The bytes of the low `k` bytes of `v`. -/
def bytesOf (k v : Nat) : List UInt8 := (List.range k).map fun i => UInt8.ofNat (v / 256 ^ i)

@[simp] theorem read_length (m : Memory) (a n : Nat) : (m.read a n).length = n := by simp [read]

@[simp] theorem bytesOf_length (k v : Nat) : (bytesOf k v).length = k := by simp [bytesOf]

theorem read_congr (h : ∀ x, a ≤ x → x < a + n → m'.byte x = m.byte x) :
    m'.read a n = m.read a n := by
  refine List.map_congr_left fun i hi => h _ (Nat.le_add_right a i) ?_
  exact Nat.add_lt_add_left (List.mem_range.mp hi) a

end Memory

/-- `bs` with `cs` over it from the offset `k`. -/
def overwrite {α : Type} (bs : List α) (k : Nat) (cs : List α) : List α :=
  bs.take k ++ cs ++ bs.drop (k + cs.length)

theorem length_overwrite {α : Type} {bs cs : List α} {k : Nat} (h : k + cs.length ≤ bs.length) :
    (overwrite bs k cs).length = bs.length := by
  simp only [overwrite, List.length_append, List.length_take, List.length_drop]
  omega

theorem getElem_overwrite {α : Type} {bs cs : List α} {k i : Nat} (h : k + cs.length ≤ bs.length)
    (hi : i < (overwrite bs k cs).length) (hb : i < bs.length) :
    (overwrite bs k cs)[i] =
      if hk : k ≤ i ∧ i < k + cs.length then cs[i - k] else bs[i] := by
  have hmin : min k bs.length = k := Nat.min_eq_left (by omega)
  simp only [overwrite, List.getElem_append, List.length_append, List.length_take, hmin,
    List.getElem_take, List.getElem_drop]
  by_cases hlo : i < k
  · rw [dif_pos (by omega), dif_pos hlo, dif_neg (by omega)]
  · by_cases hhi : i < k + cs.length
    · rw [dif_pos hhi, dif_neg hlo, dif_pos (by omega)]
    · rw [dif_neg hhi, dif_neg (by omega)]
      congr 1
      omega

namespace Memory

variable {m : Memory} {a n : Nat}

theorem getElem_read (m : Memory) (a n : Nat) {i : Nat} (h : i < (m.read a n).length) :
    (m.read a n)[i] = m.byte (a + i) := by
  simp [read]

/-- A store into the bytes that are read. -/
theorem read_store {k l : Nat} (h : k + l ≤ n) (v : Nat) :
    (m.store (a + k) l v).read a n = overwrite (m.read a n) k (bytesOf l v) := by
  have hlen : k + (bytesOf l v).length ≤ (m.read a n).length := by simpa using h
  refine List.ext_getElem ?_ fun i h₁ h₂ => ?_
  · rw [length_overwrite hlen, read_length, read_length]
  · rw [getElem_read, getElem_overwrite hlen h₂ (length_overwrite hlen ▸ h₂)]
    simp only [store]
    by_cases hi : k ≤ i ∧ i < k + (bytesOf l v).length
    · have hil := hi.2
      rw [bytesOf_length] at hil
      rw [dif_pos hi, if_pos (by omega)]
      simp only [bytesOf, List.getElem_map, List.getElem_range]
      congr 3
      omega
    · rw [bytesOf_length] at hi
      rw [dif_neg (by rwa [bytesOf_length]), if_neg (by omega), getElem_read]

end Memory

/-! ### Blocks -/

/-- The bytes of the block at each address. -/
abbrev Heap := Nat → Option (List UInt8)

namespace Heap

variable {h : Heap} {m m' : Memory} {p q n : Nat} {bs cs : List UInt8}

/-- No two blocks overlap. -/
def Apart (h : Heap) : Prop :=
  ∀ p q bs cs, p ≠ q → h p = some bs → h q = some cs →
    p + bs.length ≤ q ∨ q + cs.length ≤ p

/-- A block of `n` bytes at `p` would overlap none. -/
def Vacant (h : Heap) (p n : Nat) : Prop :=
  h p = none ∧ ∀ q cs, h q = some cs → p + n ≤ q ∨ q + cs.length ≤ p

/-- The memory has the bytes of each block. -/
def Holds (h : Heap) (m : Memory) : Prop := ∀ p bs, h p = some bs → m.read p bs.length = bs

theorem update_eq {o : Option (List UInt8)} (hq : Function.update h p o q = some bs) :
    q = p ∧ o = some bs ∨ q ≠ p ∧ h q = some bs := by
  by_cases hqp : q = p
  · subst hqp
    rw [Function.update_self] at hq
    exact .inl ⟨rfl, hq⟩
  · rw [Function.update_of_ne hqp] at hq
    exact .inr ⟨hqp, hq⟩

theorem Apart.grant (hh : h.Apart) (hp : h.Vacant p bs.length) :
    Apart (Function.update h p (some bs)) := by
  intro q r cs ds hne hq hr
  rcases update_eq hq with ⟨rfl, hcs⟩ | ⟨hqp, hq'⟩ <;>
    rcases update_eq hr with ⟨rfl, hds⟩ | ⟨hrp, hr'⟩
  · exact absurd rfl hne
  · obtain rfl := Option.some.inj hcs
    exact hp.2 r ds hr'
  · obtain rfl := Option.some.inj hds
    exact (hp.2 q cs hq').symm
  · exact hh q r cs ds hne hq' hr'

theorem Apart.forget (hh : h.Apart) (p : Nat) : Apart (Function.update h p none) := by
  intro q r cs ds hne hq hr
  rcases update_eq hq with ⟨-, hcs⟩ | ⟨-, hq'⟩
  · cases hcs
  · rcases update_eq hr with ⟨-, hds⟩ | ⟨-, hr'⟩
    · cases hds
    · exact hh q r cs ds hne hq' hr'

/-- New bytes, as many as before. -/
theorem Apart.write (hh : h.Apart) (hp : h p = some bs) (hlen : cs.length = bs.length) :
    Apart (Function.update h p (some cs)) := by
  intro q r ds es hne hq hr
  rcases update_eq hq with ⟨rfl, hcs⟩ | ⟨hqp, hq'⟩ <;>
    rcases update_eq hr with ⟨rfl, hds⟩ | ⟨hrp, hr'⟩
  · exact absurd rfl hne
  · obtain rfl := Option.some.inj hcs
    rw [hlen]
    exact hh q r bs es hne hp hr'
  · obtain rfl := Option.some.inj hds
    rw [hlen]
    exact hh q r ds bs hne hq' hp
  · exact hh q r ds es hne hq' hr'

theorem Holds.congr (hm : h.Holds m) (heq : ∀ p bs, h p = some bs → ∀ x, p ≤ x →
    x < p + bs.length → m'.byte x = m.byte x) : h.Holds m' := by
  intro p bs hp
  rw [Memory.read_congr (heq p bs hp)]
  exact hm p bs hp

theorem Holds.grant (hm : h.Holds m) (p n : Nat) :
    Holds (Function.update h p (some (m.read p n))) m := by
  intro q bs hq
  rcases update_eq hq with ⟨rfl, hbs⟩ | ⟨-, hq'⟩
  · obtain rfl := Option.some.inj hbs
    rw [Memory.read_length]
  · exact hm q bs hq'

theorem Holds.forget (hm : h.Holds m) (p : Nat) : Holds (Function.update h p none) m := by
  intro q bs hq
  rcases update_eq hq with ⟨-, hbs⟩ | ⟨-, hq'⟩
  · cases hbs
  · exact hm q bs hq'

/-- A store inside a block changes that block only. -/
theorem Holds.write (hm : h.Holds m) (hh : h.Apart) (hp : h p = some bs) {k l : Nat}
    (hkl : k + l ≤ bs.length) (v : Nat) :
    Holds (Function.update h p (some (overwrite bs k (Memory.bytesOf l v))))
      (m.store (p + k) l v) := by
  intro q cs hq
  rcases update_eq hq with ⟨rfl, hcs⟩ | ⟨hqp, hq'⟩
  · obtain rfl := Option.some.inj hcs
    rw [length_overwrite (by simpa using hkl), Memory.read_store hkl, hm q bs hp]
  · have hd := hh q p cs bs hqp hq' hp
    rw [Memory.read_congr fun x h₁ h₂ => Memory.store_byte_of_not_mem (by omega)]
    exact hm q cs hq'

/-! ### Clients -/

inductive Request where
  | allocate (size : Nat)
  | release (ptr : Nat)
deriving DecidableEq

/-- The heap, and what each thread has asked for. -/
structure Clients (ι : Type) where
  heap : Heap
  asked : ι → Option Request

inductive Event (ι : Type) where
  | ask (t : ι) (r : Request)
  /-- a block of the size that was asked for, or a larger one -/
  | grant (t : ι) (ptr : Nat) (bytes : List UInt8)
  | refuse (t : ι)
  | released (t : ι)
  | write (ptr offset : Nat) (bytes : List UInt8)

/-- What the clients see: requests, answers (an address, null for a refusal) and their writes. -/
inductive Shown (ι : Type) where
  | ask (t : ι) (r : Request)
  | answer (t : ι) (ptr : Option Nat)
  | write (ptr offset : Nat) (bytes : List UInt8)

variable {ι : Type}

def Event.Allowed (c : Clients ι) : Event ι → Prop
  | .ask t (.allocate _) => c.asked t = none
  | .ask t (.release p) => c.asked t = none ∧ ∃ bs, c.heap p = some bs
  | .grant t p bs => (∃ n ≤ bs.length, c.asked t = some (.allocate n)) ∧ p ≠ 0 ∧
      c.heap.Vacant p bs.length
  | .refuse t => ∃ n, c.asked t = some (.allocate n)
  | .released t => ∃ p, c.asked t = some (.release p)
  | .write p k cs => ∃ bs, c.heap p = some bs ∧ k + cs.length ≤ bs.length

/-- A block is given up when it is asked to be released. -/
def Event.apply [DecidableEq ι] (c : Clients ι) : Event ι → Clients ι
  | .ask t (.allocate n) => ⟨c.heap, Function.update c.asked t (some (.allocate n))⟩
  | .ask t (.release p) =>
      ⟨Function.update c.heap p none, Function.update c.asked t (some (.release p))⟩
  | .grant t p bs => ⟨Function.update c.heap p (some bs), Function.update c.asked t none⟩
  | .refuse t | .released t => ⟨c.heap, Function.update c.asked t none⟩
  | .write p k cs =>
      ⟨Function.update c.heap p ((c.heap p).map fun bs => overwrite bs k cs), c.asked⟩

theorem Event.asked_ask [DecidableEq ι] (c : Clients ι) (t : ι) (r : Request) :
    ((Event.ask t r).apply c).asked t = some r := by
  cases r <;> exact Function.update_self ..

/-- A request that has its answer. -/
theorem Event.asked_answer [DecidableEq ι] {c : Clients ι} {t : ι} (h : c.asked t = none)
    (r : Request) : Function.update ((Event.ask t r).apply c).asked t none = c.asked := by
  cases r <;> exact (Function.update_idem ..).trans (h ▸ Function.update_eq_self t c.asked)

def system (ι : Type) [DecidableEq ι] : System (Clients ι) (Event ι) where
  allowed := Event.Allowed
  step c e := some (e.apply c)

/-- No block in use, no request made. -/
def Clients.rest (ι : Type) : Clients ι := ⟨fun _ => none, fun _ => none⟩

def Event.shown (_ : Clients ι) : Event ι → Option (Shown ι)
  | .ask t r => some (.ask t r)
  | .grant t p _ => some (.answer t (some p))
  | .refuse t => some (.answer t (some 0))
  | .released t => some (.answer t none)
  | .write p k cs => some (.write p k cs)

end Heap

end TieredAllocator.Lib
