import TieredAllocator.Lib.Runs
import TieredAllocator.Lib.Words
import TieredAllocator.Caches.Definitions

/-!
# Caches — transfer caches in memory

`TransferCache` as the source lays it out: the mutex, an array of slots and a 32-bit count, in
memory that other code writes around it; batches are copied into the array and out of it.  The
transfer caches refine the lists that the rest of the development uses (`transfers_refine`): what
`RemoveRange` writes into the buffer of its caller is the end of the list, whatever the slots above
`used_slots` hold.
-/

namespace TieredAllocator
open Lib

namespace TransferCache

/-! ### One cache -/

section One
variable {mu tc batch n : Nat} {m m' : Memory} {l : List Nat}

/-- `slots`, behind the `mu` bytes of the mutex. -/
def slotsAt (mu tc : Nat) : Nat := tc + mu

/-- `used_slots`. -/
def usedSlotsAt (mu tc : Nat) : Nat := tc + mu + 8 * transferCacheCapacity

/-- `sizeof(TransferCache)`: `used_slots` is padded to a word. -/
def objectSize (mu : Nat) : Nat := mu + 8 * transferCacheCapacity + 8

def usedSlots (mu : Nat) (m : Memory) (tc : Nat) : Nat := m.load (usedSlotsAt mu tc) 4

def setUsedSlots (mu : Nat) (m : Memory) (tc v : Nat) : Memory := m.store (usedSlotsAt mu tc) 4 v

/-- `InsertRange`, in 32-bit arithmetic. -/
def insertAt (mu : Nat) (m : Memory) (tc batch n : Nat) : Nat × Memory :=
  let used := usedSlots mu m tc
  let space := (transferCacheCapacity + (2 ^ 32 - used)) % 2 ^ 32
  let toInsert := min n space
  if 0 < toInsert then
    let m := m.copy (slotsAt mu tc + 8 * used) batch (8 * toInsert)
    (toInsert, setUsedSlots mu m tc ((used + toInsert) % 2 ^ 32))
  else (toInsert, m)

/-- `RemoveRange`. -/
def removeAt (mu : Nat) (m : Memory) (tc batch n : Nat) : Nat × Memory :=
  let used := usedSlots mu m tc
  let toRemove := min n used
  if 0 < toRemove then
    let used := used - toRemove
    let m := setUsedSlots mu m tc used
    (toRemove, m.copy batch (slotsAt mu tc + 8 * used) (8 * toRemove))
  else (toRemove, m)

/-- The cache at `tc` holds the list `l`. -/
structure HoldsAt (mu : Nat) (m : Memory) (tc : Nat) (l : List Nat) : Prop where
  used : usedSlots mu m tc = l.length
  slots : m.words (slotsAt mu tc) l.length = l
  bounded : l.length ≤ transferCacheCapacity

/-- `[x, x + k)` lies in the cache at `tc`. -/
def Inside (mu tc x k : Nat) : Prop := tc ≤ x ∧ x + k ≤ tc + objectSize mu

theorem HoldsAt.congr (h : HoldsAt mu m tc l)
    (heq : ∀ x, tc ≤ x → x < tc + objectSize mu → m'.byte x = m.byte x) : HoldsAt mu m' tc l := by
  have hb := h.bounded
  have hsize : objectSize mu = mu + 8 * transferCacheCapacity + 8 := rfl
  have hslots : slotsAt mu tc = tc + mu := rfl
  have hused : usedSlotsAt mu tc = tc + mu + 8 * transferCacheCapacity := rfl
  refine ⟨?_, ?_, hb⟩
  · rw [← h.used]
    exact Memory.load_congr 4 _ fun x h₁ h₂ => heq x (by omega) (by omega)
  · rw [Memory.words_congr fun x h₁ h₂ => heq x (by omega) (by omega)]
    exact h.slots

/-- **`InsertRange`** puts the front of the batch on top of the list, as far as there is space. -/
theorem insertAt_spec (h : HoldsAt mu m tc l) (batch n : Nat) :
    ∃ m', insertAt mu m tc batch n = (min n (transferCacheCapacity - l.length), m') ∧
      HoldsAt mu m' tc (l ++ (m.words batch n).take (min n (transferCacheCapacity - l.length))) ∧
      Memory.Wrote (Inside mu tc) m m' := by
  have hb := h.bounded
  have hcap : transferCacheCapacity < 2 ^ 32 := by decide
  have hspace : (transferCacheCapacity + (2 ^ 32 - l.length)) % 2 ^ 32 =
      transferCacheCapacity - l.length := by
    rw [show transferCacheCapacity + (2 ^ 32 - l.length) =
      transferCacheCapacity - l.length + 2 ^ 32 by omega, Nat.add_mod_right,
      Nat.mod_eq_of_lt (by omega)]
  have hsize : objectSize mu = mu + 8 * transferCacheCapacity + 8 := rfl
  have hslots : slotsAt mu tc = tc + mu := rfl
  have hused : usedSlotsAt mu tc = tc + mu + 8 * transferCacheCapacity := rfl
  simp only [insertAt, h.used, hspace]
  set k := min n (transferCacheCapacity - l.length) with hk
  have hkn : k ≤ n := Nat.min_le_left _ _
  have hkc : l.length + k ≤ transferCacheCapacity := by omega
  by_cases hpos : 0 < k
  · rw [if_pos hpos, Nat.mod_eq_of_lt (by omega)]
    have htake := Memory.words_take (m := m) (a := batch) hkn
    refine ⟨_, rfl, ⟨?_, ?_, ?_⟩, ?_⟩
    · rw [htake, List.length_append, Memory.words_length]
      exact Memory.load_store_self_of_lt (by simp only [Nat.reducePow]; omega)
    · rw [htake, List.length_append, Memory.words_length, setUsedSlots,
        Memory.words_congr fun x h₁ h₂ => Memory.store_byte_of_not_mem (by omega),
        Memory.words_append, Memory.words_copy,
        Memory.words_congr fun x h₁ h₂ => Memory.copy_byte_of_not_mem (by omega), h.slots]
    · rw [htake, List.length_append, Memory.words_length]
      exact hkc
    · exact (Memory.Wrote.copy m _ ⟨by omega, by omega⟩).trans
        (Memory.Wrote.store _ _ ⟨by omega, by omega⟩)
  · obtain hk0 : k = 0 := by omega
    rw [if_neg hpos, hk0, List.take_zero, List.append_nil]
    exact ⟨m, rfl, h, Memory.Wrote.refl _ _⟩

/-- **`RemoveRange`** copies the end of the list into the buffer. -/
theorem removeAt_spec (h : HoldsAt mu m tc l)
    (hd : batch + 8 * n ≤ tc ∨ tc + objectSize mu ≤ batch) :
    ∃ m', removeAt mu m tc batch n = (min n l.length, m') ∧
      m'.words batch (min n l.length) = l.drop (l.length - min n l.length) ∧
      HoldsAt mu m' tc (l.take (l.length - min n l.length)) ∧
      Memory.Wrote (fun x k => Inside mu tc x k ∨ batch ≤ x ∧ x + k ≤ batch + 8 * n) m m' := by
  have hb := h.bounded
  have hcap : transferCacheCapacity < 2 ^ 32 := by decide
  have hsize : objectSize mu = mu + 8 * transferCacheCapacity + 8 := rfl
  have hslots : slotsAt mu tc = tc + mu := rfl
  have hused : usedSlotsAt mu tc = tc + mu + 8 * transferCacheCapacity := rfl
  simp only [removeAt, h.used]
  set k := min n l.length with hk
  have hkn : k ≤ n ∧ k ≤ l.length := by omega
  by_cases hpos : 0 < k
  · rw [if_pos hpos]
    refine ⟨_, rfl, ?_, ⟨?_, ?_, ?_⟩, ?_⟩
    · rw [Memory.words_copy, setUsedSlots,
        Memory.words_congr fun x h₁ h₂ => Memory.store_byte_of_not_mem (by omega)]
      have hdrop := Memory.words_drop (m := m) (a := slotsAt mu tc) (n := l.length)
        (k := l.length - k) (Nat.sub_le _ _)
      rw [h.slots, show l.length - (l.length - k) = k by omega] at hdrop
      exact hdrop.symm
    · rw [List.length_take, Nat.min_eq_left (Nat.sub_le _ _), usedSlots,
        Memory.load_congr 4 _ fun x h₁ h₂ => Memory.copy_byte_of_not_mem (by omega)]
      exact Memory.load_store_self_of_lt (by simp only [Nat.reducePow]; omega)
    · rw [List.length_take, Nat.min_eq_left (Nat.sub_le _ _),
        Memory.words_congr fun x h₁ h₂ => Memory.copy_byte_of_not_mem (by omega), setUsedSlots,
        Memory.words_congr fun x h₁ h₂ => Memory.store_byte_of_not_mem (by omega),
        ← Memory.words_take (Nat.sub_le l.length k), h.slots]
    · rw [List.length_take]
      omega
    · refine Memory.Wrote.trans (Memory.Wrote.store _ _ (.inl ⟨by omega, by omega⟩))
        (Memory.Wrote.copy _ _ (.inr ⟨by omega, by omega⟩))
  · obtain hk0 : k = 0 := by omega
    rw [if_neg hpos, hk0, Nat.sub_zero, List.take_length, List.drop_length]
    exact ⟨m, rfl, rfl, h, Memory.Wrote.refl _ _⟩

end One

/-! ### The array of caches -/

/-- `transfer_caches` at `base`; the mutexes have `mu` bytes. -/
structure Place where
  base : Nat
  mu : Nat

inductive Move where
  | insertRange (sc batch n : Nat)
  | removeRange (sc batch n : Nat)
  /-- other code stores `v` in `k` bytes -/
  | store (a k v : Nat)

/-- What the callers see: the classes, the pointers and the counts. -/
inductive Moved where
  | inserted (sc : Nat) (batch : List Nat) (n : Nat)
  | removed (sc n : Nat) (batch : List Nat)
deriving DecidableEq

namespace Place

variable {P : Place} {m m' : Memory} {f : Nat → TransferCache} {sc sc' batch n : Nat}

def cacheAt (P : Place) (sc : Nat) : Nat := P.base + sc * objectSize P.mu

/-- One past the last byte. -/
def stop (P : Place) : Nat := P.cacheAt numSizeClasses

/-- Batches and other stores lie outside the caches. -/
def Allowed (P : Place) : Move → Prop
  | .insertRange sc batch n | .removeRange sc batch n =>
      sc < numSizeClasses ∧ n < 2 ^ 32 ∧ (batch + 8 * n ≤ P.base ∨ P.stop ≤ batch)
  | .store a k _ => a + k ≤ P.base ∨ P.stop ≤ a

instance : (c : Move) → Decidable (P.Allowed c)
  | .insertRange sc batch n | .removeRange sc batch n => inferInstanceAs
      (Decidable (sc < numSizeClasses ∧ n < 2 ^ 32 ∧ (batch + 8 * n ≤ P.base ∨ P.stop ≤ batch)))
  | .store a k _ => inferInstanceAs (Decidable (a + k ≤ P.base ∨ P.stop ≤ a))

def apply (P : Place) (m : Memory) : Move → Memory
  | .insertRange sc batch n => (insertAt P.mu m (P.cacheAt sc) batch n).2
  | .removeRange sc batch n => (removeAt P.mu m (P.cacheAt sc) batch n).2
  | .store a k v => m.store a k v

def system (P : Place) : System Memory Move where
  allowed _ c := P.Allowed c
  step m c := some (P.apply m c)

instance (m : Memory) (c : Move) : Decidable (P.system.allowed m c) :=
  inferInstanceAs (Decidable (P.Allowed c))

def shown (P : Place) (m : Memory) : Move → Option Moved
  | .insertRange sc batch n =>
      some (.inserted sc (m.words batch n) (insertAt P.mu m (P.cacheAt sc) batch n).1)
  | .removeRange sc batch n =>
      let r := removeAt P.mu m (P.cacheAt sc) batch n
      some (.removed sc n (r.2.words batch r.1))
  | .store _ _ _ => none

/-- Each cache holds its list. -/
def Holds (P : Place) (m : Memory) (f : Nat → TransferCache) : Prop :=
  ∀ sc < numSizeClasses, HoldsAt P.mu m (P.cacheAt sc) (f sc).slots

theorem cacheAt_inside (hsc : sc < numSizeClasses) :
    P.base ≤ P.cacheAt sc ∧ P.cacheAt sc + objectSize P.mu ≤ P.stop := by
  have hle := Nat.mul_le_mul_right (objectSize P.mu) (Nat.succ_le_of_lt hsc)
  rw [Nat.succ_mul] at hle
  exact ⟨Nat.le_add_right _ _, by simp only [stop, cacheAt]; omega⟩

theorem cacheAt_apart (h : sc ≠ sc') : P.cacheAt sc + objectSize P.mu ≤ P.cacheAt sc' ∨
    P.cacheAt sc' + objectSize P.mu ≤ P.cacheAt sc := by
  simp only [cacheAt]
  rcases Nat.lt_or_gt_of_ne h with hlt | hlt
  · have hle := Nat.mul_le_mul_right (objectSize P.mu) (Nat.succ_le_of_lt hlt)
    rw [Nat.succ_mul] at hle
    exact .inl (by omega)
  · have hle := Nat.mul_le_mul_right (objectSize P.mu) (Nat.succ_le_of_lt hlt)
    rw [Nat.succ_mul] at hle
    exact .inr (by omega)

/-- A change of one cache, and of bytes outside all of them. -/
theorem Holds.update (h : P.Holds m f) {tc : TransferCache}
    (htc : HoldsAt P.mu m' (P.cacheAt sc) tc.slots)
    (hw : Memory.Wrote (fun x k => Inside P.mu (P.cacheAt sc) x k ∨ x + k ≤ P.base ∨ P.stop ≤ x)
      m m') : P.Holds m' (Function.update f sc tc) := by
  intro sc' hsc'
  by_cases heq : sc' = sc
  · subst heq
    rwa [Function.update_self]
  · rw [Function.update_of_ne heq]
    refine (h sc' hsc').congr fun x h₁ h₂ => hw.byte_eq fun a k hin => ?_
    have hreg := cacheAt_inside (P := P) hsc'
    have hapart := cacheAt_apart (P := P) heq
    rcases hin with ⟨h₃, h₄⟩ | h₃ | h₃ <;> omega

end Place

/-! ### The lists -/

inductive ListMove where
  | insertRange (sc : Nat) (batch : List Nat)
  | removeRange (sc n : Nat)

def ListMove.apply (f : Nat → TransferCache) : ListMove → Nat → TransferCache
  | .insertRange sc batch => Function.update f sc ((f sc).insertRange batch).2
  | .removeRange sc n => Function.update f sc ((f sc).removeRange n).2

/-- The caches as lists. -/
def lists : System (Nat → TransferCache) ListMove where
  allowed _ _ := True
  step f c := some (c.apply f)

def ListMove.shown (f : Nat → TransferCache) : ListMove → Option Moved
  | .insertRange sc batch => some (.inserted sc batch ((f sc).insertRange batch).1)
  | .removeRange sc n => some (.removed sc n ((f sc).removeRange n).1)

namespace Place

variable {P : Place} {m m' : Memory} {f : Nat → TransferCache} {c : Move}

theorem holds_step (h : P.Holds m f) (ha : P.system.allowed m c)
    (hs : P.system.step m c = some m') :
    ∃ es g, lists.Run f es g ∧ lists.trace ListMove.shown f es = (P.shown m c).toList ∧
      P.Holds m' g := by
  obtain rfl := Option.some.inj hs
  cases c with
  | insertRange sc batch n =>
      obtain ⟨hsc, -⟩ := ha
      obtain ⟨m', hres, hholds, hw⟩ := insertAt_spec (h sc hsc) batch n
      have hlen : min (m.words batch n).length (transferCacheCapacity - (f sc).slots.length) =
          min n (transferCacheCapacity - (f sc).slots.length) := by rw [Memory.words_length]
      refine ⟨[.insertRange sc (m.words batch n)], _, .one trivial rfl, ?_, ?_⟩
      · simp only [System.trace, ListMove.shown, insertRange, shown, hres, hlen]
        rfl
      · simp only [apply, hres]
        refine h.update ?_ (hw.mono fun x k => .inl)
        simp only [insertRange, hlen]
        exact hholds
  | removeRange sc batch n =>
      obtain ⟨hsc, -, hd⟩ := ha
      have hin := cacheAt_inside (P := P) hsc
      have hout : batch + 8 * n ≤ P.cacheAt sc ∨ P.cacheAt sc + objectSize P.mu ≤ batch := by omega
      obtain ⟨m', hres, hgot, hholds, hw⟩ := removeAt_spec (h sc hsc) hout
      refine ⟨[.removeRange sc n], _, .one trivial rfl, ?_, ?_⟩
      · simp only [System.trace, ListMove.shown, removeRange, shown, hres, hgot]
        rfl
      · simp only [apply, hres]
        exact h.update hholds (hw.mono fun x k hx => hx.imp_right fun hx => by omega)
  | store a k v =>
      refine ⟨[], f, .refl f, rfl, fun sc hsc => (h sc hsc).congr fun x h₁ h₂ => ?_⟩
      have hin := cacheAt_inside (P := P) hsc
      have ha : a + k ≤ P.base ∨ P.stop ≤ a := ha
      exact Memory.store_byte_of_not_mem (by omega)

end Place

/-- **Transfer caches in memory are lists.**  From new caches, whose slots hold anything, each run
of `InsertRange` and `RemoveRange` on any of the classes, with any buffers outside the caches and
any other stores outside them in between, gives the counts and the pointers that the lists give, and
leaves the lists in the slots. -/
theorem transfers_refine {P : Place} {m₀ m : Memory} {cs : List Move}
    (hnew : ∀ sc < numSizeClasses, usedSlots P.mu m₀ (P.cacheAt sc) = 0)
    (r : P.system.Run m₀ cs m) :
    ∃ es f, lists.Run (fun _ => {}) es f ∧
      lists.trace ListMove.shown (fun _ => {}) es = P.system.trace P.shown m₀ cs ∧
      P.Holds m f := by
  have hinit : P.Holds m₀ fun _ => {} := fun sc hsc => ⟨hnew sc hsc, rfl, Nat.zero_le _⟩
  exact r.refines (fun h ha hs => Place.holds_step h ha hs) hinit

/-- Two pointers go in from one buffer and come out into another. -/
def sampleMoves : List Move :=
  [.store 8 8 16, .store 16 8 32, .insertRange 1 8 2, .store 8 8 0, .removeRange 1 32 5]

theorem transfers_refine_sample : ∃ es f, lists.Run (fun _ => {}) es f ∧
    lists.trace ListMove.shown (fun _ => {}) es =
      [.inserted 1 [16, 32] 2, .removed 1 5 [16, 32]] := by
  have hrun : ((Place.system ⟨80, 40⟩).replay .zero sampleMoves).isSome = true := by decide
  have htrace : (Place.system ⟨80, 40⟩).trace (Place.shown ⟨80, 40⟩) .zero sampleMoves =
      [.inserted 1 [16, 32] 2, .removed 1 5 [16, 32]] := by decide +kernel
  obtain ⟨m, hm⟩ := Option.isSome_iff_exists.mp hrun
  have hnew : ∀ sc < numSizeClasses, usedSlots 40 .zero (Place.cacheAt ⟨80, 40⟩ sc) = 0 :=
    fun sc _ => Memory.load_eq_zero 4 _ fun _ _ _ => rfl
  obtain ⟨es, f, hr, ht, -⟩ := transfers_refine hnew (System.Run.of_replay hm)
  exact ⟨es, f, hr, ht.trans htrace⟩

end TransferCache

end TieredAllocator
