import TieredAllocator.Lib.Unrolled
import TieredAllocator.PageHeap.Links
import TieredAllocator.CentralFreeList.Definitions

/-!
# Central free list — the packed list of a span

The free objects of a span form an unrolled list whose nodes are the objects themselves.
`PackedExact m x nodes O` says that the list of `x`, which visits `nodes`, holds each carved
object once, except those out (`O`), and that the counters of the span agree.  The three moves
inside a span keep it: `populate_spec`, `take_spec` and `give_spec`.  Each also states its
footprint: what it writes lies inside one object that is not out (`FreeSlot`).
-/

namespace TieredAllocator
open Lib

variable {m m' : Memory} {x y : Span} {nodes : List Nat} {O : Nat → Prop} {base z i j a k : Nat}

/-! ### The fields of a node -/

section Fields
variable {node slots v j : Nat}

theorem count_lt (m : Memory) (node : Nat) : PackedNode.count m node < 2 ^ 16 :=
  Memory.load_lt m 2 (node + 2)

@[simp] theorem count_setCount (hv : v < 2 ^ 16) :
    PackedNode.count (PackedNode.setCount m node v) node = v :=
  Memory.load_store_self_of_lt hv

@[simp] theorem nextIdx_setCount :
    PackedNode.nextIdx (PackedNode.setCount m node v) node = PackedNode.nextIdx m node :=
  Memory.load_store_of_disjoint (.inl (le_refl _))

@[simp] theorem slotAt_setCount :
    slotAt (PackedNode.setCount m node v) (packedIndexes node) j =
      slotAt m (packedIndexes node) j :=
  Memory.load_store_of_disjoint (.inr (by simp only [packedIndexes, PackedNode.bytes]; omega))

@[simp] theorem nextIdx_setNextIdx (hv : v < 2 ^ 16) :
    PackedNode.nextIdx (PackedNode.setNextIdx m node v) node = v :=
  Memory.load_store_self_of_lt hv

@[simp] theorem nextIdx_setSlotAt :
    PackedNode.nextIdx (setSlotAt m (packedIndexes node) j v) node = PackedNode.nextIdx m node :=
  Memory.load_store_of_disjoint (.inl (by simp only [packedIndexes, PackedNode.bytes]; omega))

@[simp] theorem count_setSlotAt :
    PackedNode.count (setSlotAt m (packedIndexes node) j v) node = PackedNode.count m node :=
  Memory.load_store_of_disjoint (.inl (by simp only [packedIndexes, PackedNode.bytes]; omega))

@[simp] theorem slotAt_setSlotAt_self (hv : v < 2 ^ 16) :
    slotAt (setSlotAt m slots j v) slots j = v :=
  Memory.load_store_self_of_lt hv

theorem slotAt_setSlotAt_of_ne {l : Nat} (h : l ≠ j) :
    slotAt (setSlotAt m slots j v) slots l = slotAt m slots l :=
  Memory.load_store_of_disjoint (by omega)

end Fields

/-! ### Nodes -/

/-- The successor of the node in object `i`. -/
def nodeNext (m : Memory) (base z i : Nat) : Nat := PackedNode.nextIdx m (indexToPtr i base z)

/-- The indexes packed into the node in object `i`. -/
def nodePacked (m : Memory) (base z i : Nat) : List Nat :=
  (List.range (PackedNode.count m (indexToPtr i base z))).map
    (slotAt m (packedIndexes (indexToPtr i base z)))

theorem packCapacity_le (hz : 4 ≤ z) : 4 + 2 * packCapacity z ≤ z := by
  have h := Nat.mod_le ((z - 4) / 2) (2 ^ 16)
  rw [packCapacity, PackedNode.bytes, if_neg (not_lt.mpr hz)]
  omega

/-- Two objects of a span do not overlap. -/
theorem indexToPtr_disjoint (base z : Nat) (h : i ≠ j) :
    indexToPtr i base z + z ≤ indexToPtr j base z ∨
      indexToPtr j base z + z ≤ indexToPtr i base z := by
  have hlt : ∀ {i j : Nat}, i < j → indexToPtr i base z + z ≤ indexToPtr j base z := by
    intro i j hij
    have := Nat.mul_le_mul_right z hij
    simp only [indexToPtr, Nat.succ_mul] at *
    omega
  rcases Nat.lt_or_gt_of_ne h with h | h
  · exact .inl (hlt h)
  · exact .inr (hlt h)

/-- The memories agree on the object `i`. -/
def SameSlot (m m' : Memory) (base z i : Nat) : Prop :=
  ∀ a, indexToPtr i base z ≤ a → a < indexToPtr i base z + z → m'.byte a = m.byte a

section SameSlot
variable (hs : SameSlot m m' base z i)
include hs

theorem SameSlot.load_eq (h₁ : indexToPtr i base z ≤ a) (h₂ : a + k ≤ indexToPtr i base z + z) :
    m'.load a k = m.load a k :=
  Memory.load_congr k a fun b hb₁ hb₂ => hs b (by omega) (by omega)

variable (hz : 8 ≤ z)
include hz

theorem SameSlot.nextIdx_eq :
    PackedNode.nextIdx m' (indexToPtr i base z) = PackedNode.nextIdx m (indexToPtr i base z) :=
  hs.load_eq (le_refl _) (by omega)

theorem SameSlot.count_eq :
    PackedNode.count m' (indexToPtr i base z) = PackedNode.count m (indexToPtr i base z) :=
  hs.load_eq (by omega) (by omega)

theorem SameSlot.packed_eq
    (hr : PackedNode.count m (indexToPtr i base z) ≤ packCapacity z) :
    nodePacked m' base z i = nodePacked m base z i := by
  have hcap := packCapacity_le (z := z) (by omega)
  rw [nodePacked, nodePacked, hs.count_eq hz]
  refine List.map_congr_left fun j hj => hs.load_eq ?_ ?_
  · simp only [packedIndexes]; omega
  · have := List.mem_range.mp hj
    simp only [packedIndexes, PackedNode.bytes]
    omega

end SameSlot

/-- A store into one object leaves the others as they are. -/
theorem SameSlot.of_store (h : i ≠ j) (h₁ : indexToPtr j base z ≤ a)
    (h₂ : a + k ≤ indexToPtr j base z + z) (v : Nat) : SameSlot m (m.store a k v) base z i := by
  intro b hb₁ hb₂
  have := indexToPtr_disjoint base z h
  exact Memory.store_byte_of_not_mem (by omega)

theorem SameSlot.trans {m'' : Memory} (h : SameSlot m m' base z i) (h' : SameSlot m' m'' base z i) :
    SameSlot m m'' base z i :=
  fun a h₁ h₂ => (h' a h₁ h₂).trans (h a h₁ h₂)

/-! ### The list -/

/-- The chain from `head` visits `nodes`, and no node packs more than it has room for. -/
structure FreeList (m : Memory) (base z head : Nat) (nodes : List Nat) : Prop where
  chain : Chain (nodeNext m base z) invalidIndex head nodes
  room : ∀ i ∈ nodes, PackedNode.count m (indexToPtr i base z) ≤ packCapacity z

/-- The free indexes. -/
abbrev freeItems (m : Memory) (base z : Nat) (nodes : List Nat) : List Nat :=
  items (nodePacked m base z) nodes

theorem FreeList.congr {head : Nat} (hl : FreeList m base z head nodes) (hz : 8 ≤ z)
    (hs : ∀ i ∈ nodes, SameSlot m m' base z i) :
    FreeList m' base z head nodes ∧
      ∀ i ∈ nodes, nodePacked m' base z i = nodePacked m base z i where
  left :=
    { chain := hl.chain.congr fun i hi => (hs i hi).nextIdx_eq hz
      room := fun i hi => by rw [(hs i hi).count_eq hz]; exact hl.room i hi }
  right i hi := (hs i hi).packed_eq hz (hl.room i hi)

/-! ### Exactness -/

namespace Span

/-- The address of object `i`. -/
def addr (x : Span) (i : Nat) : Nat := indexToPtr i x.base x.size

/-- The fields that describe the free list. -/
def Restocked (x y : Span) : Prop :=
  y = { x with
    freelistHead := y.freelistHead
    numFreeObjects := y.numFreeObjects
    nextUninitialized := y.nextUninitialized }

end Span

/-- The list of `x` holds each carved object that is not out once, and no other. -/
structure PackedExact (m : Memory) (x : Span) (nodes : List Nat) (O : Nat → Prop) : Prop where
  list : FreeList m x.base x.size x.freelistHead nodes
  nodup : (freeItems m x.base x.size nodes).Nodup
  free : ∀ i, i ∈ freeItems m x.base x.size nodes ↔ i < x.nextUninitialized ∧ ¬ O i
  out : ∀ i, O i → i < x.nextUninitialized
  carved : x.nextUninitialized ≤ x.totalObjects
  small : x.totalObjects ≤ invalidIndex
  count : x.numFreeObjects = (freeItems m x.base x.size nodes).length

/-- `[a, a + k)` lies inside one object of `x` that is not out. -/
def FreeSlot (x : Span) (O : Nat → Prop) (a k : Nat) : Prop :=
  ∃ i, i < x.totalObjects ∧ ¬ O i ∧ x.addr i ≤ a ∧ a + k ≤ x.addr i + x.size

namespace PackedExact

theorem node_mem (_ : PackedExact m x nodes O) (hi : i ∈ nodes) :
    i ∈ freeItems m x.base x.size nodes :=
  mem_items_of_mem hi

theorem lt_total (hp : PackedExact m x nodes O) (hi : i ∈ freeItems m x.base x.size nodes) :
    i < x.totalObjects :=
  lt_of_lt_of_le ((hp.free i).mp hi).1 hp.carved

theorem lt_invalid (hp : PackedExact m x nodes O) (hi : i < x.totalObjects) : i < invalidIndex :=
  lt_of_lt_of_le hi hp.small

theorem count_le (hp : PackedExact m x nodes O) : x.numFreeObjects ≤ x.nextUninitialized := by
  rw [hp.count]
  exact length_le_of_nodup_lt hp.nodup fun t ht => ((hp.free t).mp ht).1

/-- The counters of a span fit into 16 bits. -/
theorem count_lt (hp : PackedExact m x nodes O) : x.numFreeObjects ≤ invalidIndex :=
  hp.count_le.trans (hp.carved.trans hp.small)

theorem head_lt (hp : PackedExact m x nodes O) : x.freelistHead < 2 ^ 16 := by
  by_cases hh : x.freelistHead = invalidIndex
  · rw [hh]
    decide
  · obtain ⟨l, rfl, -⟩ := hp.list.chain.eq_cons hh
    have := hp.lt_invalid (hp.lt_total (hp.node_mem (List.mem_cons_self ..)))
    simp only [invalidIndex] at this
    omega

/-- Some carved object is out exactly when fewer objects are free than carved. -/
theorem count_lt_iff (hp : PackedExact m x nodes O) :
    x.numFreeObjects < x.nextUninitialized ↔ ∃ i, O i := by
  rw [hp.count]
  constructor
  · intro hlt
    by_contra hno
    have hsub : List.range x.nextUninitialized ⊆ freeItems m x.base x.size nodes := by
      intro i hi
      exact (hp.free i).mpr ⟨List.mem_range.mp hi, fun h => hno ⟨i, h⟩⟩
    have := (List.nodup_range.subperm hsub).length_le
    rw [List.length_range] at this
    omega
  · rintro ⟨j, hj⟩
    have hjn := hp.out j hj
    have hnd : (j :: freeItems m x.base x.size nodes).Nodup :=
      List.nodup_cons.mpr ⟨fun h => ((hp.free j).mp h).2 hj, hp.nodup⟩
    refine Nat.lt_of_succ_le (length_le_of_nodup_lt hnd fun i hi => ?_)
    rcases List.mem_cons.mp hi with rfl | hi
    · exact hjn
    · exact ((hp.free i).mp hi).1

/-- When one object is out, all other carved objects are free. -/
theorem count_of_one (hp : PackedExact m x nodes O) (hO : ∀ i, O i ↔ i = j) :
    x.numFreeObjects + 1 = x.nextUninitialized := by
  have hlt := hp.count_lt_iff.mpr ⟨j, (hO j).mpr rfl⟩
  have hsub : List.range x.nextUninitialized ⊆ j :: freeItems m x.base x.size nodes := by
    intro i hi
    by_cases hij : i = j
    · exact hij ▸ List.mem_cons_self ..
    · exact List.mem_cons_of_mem _
        ((hp.free i).mpr ⟨List.mem_range.mp hi, fun h => hij ((hO i).mp h)⟩)
  have := (List.nodup_range.subperm hsub).length_le
  rw [List.length_range, List.length_cons, ← hp.count] at this
  omega

/-- What happens outside the free objects does not matter. -/
theorem congr (hp : PackedExact m x nodes O) (hz : 8 ≤ x.size)
    (hs : ∀ i, i < x.totalObjects → ¬ O i → SameSlot m m' x.base x.size i) :
    PackedExact m' x nodes O := by
  have hnode : ∀ i ∈ nodes, SameSlot m m' x.base x.size i := by
    intro i hi
    have hi' := hp.node_mem hi
    exact hs i (hp.lt_total hi') ((hp.free i).mp hi').2
  obtain ⟨hlist, hpacked⟩ := hp.list.congr hz hnode
  have hitems := items_congr hpacked
  exact
    { list := hlist
      nodup := by rw [freeItems, hitems]; exact hp.nodup
      free := fun i => by rw [freeItems, hitems]; exact hp.free i
      out := hp.out
      carved := hp.carved
      small := hp.small
      count := by rw [freeItems, hitems]; exact hp.count }

/-- Decoding the list ends and returns the free objects. -/
theorem decode_eq (hp : PackedExact m x nodes O) :
    decode (nodeNext m x.base x.size) (nodePacked m x.base x.size) invalidIndex
      (x.totalObjects + 1) x.freelistHead = some (freeItems m x.base x.size nodes) := by
  refine hp.list.chain.decode_eq (Nat.lt_succ_of_le ?_)
  exact length_le_of_nodup_lt (sublist_items.nodup hp.nodup) fun i hi =>
    hp.lt_total (hp.node_mem hi)

end PackedExact

/-! ### Taking an object -/

/-- One object less on the list. -/
theorem PackedExact.taken {nodes' : List Nat} (hp : PackedExact m x nodes O) (head : Nat)
    (hl : FreeList m' x.base x.size head nodes')
    (hperm : (freeItems m x.base x.size nodes).Perm (j :: freeItems m' x.base x.size nodes')) :
    j < x.nextUninitialized ∧ ¬ O j ∧ sub32 x.numFreeObjects 1 + 1 = x.numFreeObjects ∧
      PackedExact m' { x with
        freelistHead := head, numFreeObjects := sub32 x.numFreeObjects 1 } nodes'
        (fun i => O i ∨ i = j) := by
  have hj := (hp.free j).mp (hperm.mem_iff.mpr (by simp))
  obtain ⟨hjn, hnd⟩ := List.nodup_cons.mp (hperm.nodup_iff.mp hp.nodup)
  have hlen := hperm.length_eq
  have hcnt := hp.count
  have hsmall := hp.count_lt
  rw [List.length_cons] at hlen
  have hsub : sub32 x.numFreeObjects 1 + 1 = x.numFreeObjects := by
    simp only [sub32, invalidIndex] at *
    omega
  refine ⟨hj.1, hj.2, hsub, ?_⟩
  exact
    { list := hl
      nodup := hnd
      free := fun i => by
        have hi := hp.free i
        rw [hperm.mem_iff, List.mem_cons] at hi
        constructor
        · intro hmem
          obtain ⟨h₁, h₂⟩ := hi.mp (.inr hmem)
          exact ⟨h₁, fun h => h.elim h₂ fun e => hjn (e ▸ hmem)⟩
        · rintro ⟨h₁, h₂⟩
          exact (hi.mpr ⟨h₁, fun h => h₂ (.inl h)⟩).resolve_left fun e => h₂ (.inr e)
      out := fun i hi => hi.elim (hp.out i) fun e => e ▸ hj.1
      carved := hp.carved
      small := hp.small
      count := by
        show sub32 x.numFreeObjects 1 = (freeItems m' x.base x.size nodes').length
        omega }

/-- **`take`** hands out an object of the list. -/
theorem take_spec (hp : PackedExact m x nodes O) (hz : 8 ≤ x.size)
    (hh : x.freelistHead ≠ invalidIndex) :
    ∃ j m' y nodes', take m x.size x = (x.addr j, m', y) ∧ j < x.nextUninitialized ∧ ¬ O j ∧
      PackedExact m' y nodes' (fun i => O i ∨ i = j) ∧
      Memory.Wrote (FreeSlot x fun i => O i ∨ i = j) m m' ∧ x.Restocked y ∧
      y.numFreeObjects + 1 = x.numFreeObjects ∧ y.nextUninitialized = x.nextUninitialized := by
  obtain ⟨l, rfl, hchain⟩ := hp.list.chain.eq_cons hh
  have hroom := hp.list.room _ (List.mem_cons_self ..)
  have hhead := hp.node_mem (List.mem_cons_self ..)
  have hnd := (sublist_items.nodup hp.nodup)
  obtain ⟨hhl, -⟩ := List.nodup_cons.mp hnd
  rcases Nat.eq_zero_or_pos (PackedNode.count m (indexToPtr x.freelistHead x.base x.size))
    with hc | hc
  · -- the head packs nothing and is handed out itself
    have hpacked : nodePacked m x.base x.size x.freelistHead = [] := by simp [nodePacked, hc]
    have hl : FreeList m x.base x.size (nodeNext m x.base x.size x.freelistHead) l :=
      ⟨hchain, fun i hi => hp.list.room i (by simp [hi])⟩
    obtain ⟨h₁, h₂, hsub, hp'⟩ := hp.taken (j := x.freelistHead) _ hl
      (by rw [freeItems, items_cons, hpacked]; rfl)
    refine ⟨_, m, _, l, ?_, h₁, h₂, hp', Memory.Wrote.refl _ m, rfl, hsub, rfl⟩
    simp only [take, hc, lt_irrefl, if_false]
    rfl
  · -- the last packed index is handed out
    obtain ⟨n, hn⟩ : ∃ n, PackedNode.count m (indexToPtr x.freelistHead x.base x.size) = n + 1 :=
      ⟨_, (Nat.succ_pred_eq_of_pos hc).symm⟩
    have hn₁ := count_lt m (indexToPtr x.freelistHead x.base x.size)
    let node := indexToPtr x.freelistHead x.base x.size
    let m' := PackedNode.setCount m node n
    have hcount : PackedNode.count m' node = n := count_setCount (by omega)
    have hsame : ∀ i ∈ l, SameSlot m m' x.base x.size i := by
      intro i hi
      exact SameSlot.of_store (fun e => hhl (e ▸ hi)) (j := x.freelistHead) (by omega) (by omega) n
    have hpacked : nodePacked m x.base x.size x.freelistHead =
        nodePacked m' x.base x.size x.freelistHead ++ [slotAt m (packedIndexes node) n] := by
      rw [nodePacked, nodePacked, hn, show PackedNode.count m' _ = n from hcount, List.range_succ,
        List.map_append]
      congr 1
      exact List.map_congr_left fun i _ => slotAt_setCount.symm
    have hl : FreeList m' x.base x.size x.freelistHead (x.freelistHead :: l) := by
      refine ⟨hp.list.chain.congr fun i hi => ?_, fun i hi => ?_⟩
      · rcases List.mem_cons.mp hi with rfl | hi
        · exact nextIdx_setCount
        · exact (hsame i hi).nextIdx_eq hz
      · rcases List.mem_cons.mp hi with rfl | hi
        · rw [show PackedNode.count m' _ = n from hcount]
          omega
        · rw [(hsame i hi).count_eq hz]
          exact hp.list.room i (by simp [hi])
    obtain ⟨h₁, h₂, hsub, hp'⟩ := hp.taken x.freelistHead hl
      (items_pop hpacked fun i hi => (hsame i hi).packed_eq hz (hp.list.room i (by simp [hi])))
    refine ⟨_, m', _, _, ?_, h₁, h₂, hp', Memory.Wrote.store m n ?_, rfl, hsub, rfl⟩
    · simp only [take, hn, Nat.succ_pos, if_true, Nat.add_sub_cancel, slotAt_setCount]
      rfl
    · have hmem := (hp'.free x.freelistHead).mp (hp'.node_mem (List.mem_cons_self ..))
      refine ⟨x.freelistHead, hp.lt_total hhead, hmem.2, ?_, ?_⟩
      · simp only [Span.addr]; omega
      · simp only [Span.addr]; omega

/-! ### Giving an object back -/

/-- One object more on the list. -/
theorem PackedExact.given {nodes' : List Nat} (hp : PackedExact m x nodes O) (hj : O j)
    (head : Nat) (hl : FreeList m' x.base x.size head nodes')
    (hperm : (freeItems m' x.base x.size nodes').Perm (j :: freeItems m x.base x.size nodes)) :
    add32 x.numFreeObjects 1 = x.numFreeObjects + 1 ∧
      PackedExact m' { x with
        freelistHead := head, numFreeObjects := add32 x.numFreeObjects 1 } nodes'
        (fun i => O i ∧ i ≠ j) := by
  have hjf : j ∉ freeItems m x.base x.size nodes := fun h => ((hp.free j).mp h).2 hj
  have hlen := hperm.length_eq
  have hcnt := hp.count
  have hsmall := hp.count_lt
  rw [List.length_cons] at hlen
  have hadd : add32 x.numFreeObjects 1 = x.numFreeObjects + 1 := by
    simp only [add32, invalidIndex] at *
    omega
  refine ⟨hadd, ?_⟩
  exact
    { list := hl
      nodup := hperm.nodup_iff.mpr (List.nodup_cons.mpr ⟨hjf, hp.nodup⟩)
      free := fun i => by
        show i ∈ freeItems m' x.base x.size nodes' ↔ _
        rw [hperm.mem_iff, List.mem_cons, hp.free i]
        constructor
        · rintro (rfl | ⟨h₁, h₂⟩)
          · exact ⟨hp.out _ hj, fun h => h.2 rfl⟩
          · exact ⟨h₁, fun h => h₂ h.1⟩
        · rintro ⟨h₁, h₂⟩
          by_cases e : i = j
          · exact .inl e
          · exact .inr ⟨h₁, fun h => h₂ ⟨h, e⟩⟩
      out := fun i hi => hp.out i hi.1
      carved := hp.carved
      small := hp.small
      count := by
        show add32 x.numFreeObjects 1 = (freeItems m' x.base x.size nodes').length
        omega }

theorem ptrToIndex_addr (hz : 8 ≤ x.size) (hj : j < 2 ^ 16) :
    ptrToIndex (x.addr j) x.base x.size = j := by
  simp only [ptrToIndex, Span.addr, indexToPtr, Nat.add_sub_cancel_left]
  rw [Nat.mul_div_cancel _ (by omega), Nat.mod_eq_of_lt hj]

/-- **`give`** puts an object that is out back on the list. -/
theorem give_spec (hp : PackedExact m x nodes O) (hz : 8 ≤ x.size) (hj : O j) :
    ∃ m' y nodes', give m x.size x (x.addr j) = (m', y) ∧
      PackedExact m' y nodes' (fun i => O i ∧ i ≠ j) ∧
      Memory.Wrote (FreeSlot x fun i => O i ∧ i ≠ j) m m' ∧ x.Restocked y ∧
      y.numFreeObjects = x.numFreeObjects + 1 ∧ y.nextUninitialized = x.nextUninitialized := by
  have hjt : j < x.totalObjects := lt_of_lt_of_le (hp.out j hj) hp.carved
  have hji := hp.lt_invalid hjt
  have hidx : ptrToIndex (x.addr j) x.base x.size = j :=
    ptrToIndex_addr hz (by simp only [invalidIndex] at hji; omega)
  have hcap := packCapacity_le (z := x.size) (by omega)
  by_cases hc : x.freelistHead ≠ invalidIndex ∧
      PackedNode.count m (indexToPtr x.freelistHead x.base x.size) < packCapacity x.size
  · -- packed into the head
    obtain ⟨l, rfl, hchain⟩ := hp.list.chain.eq_cons hc.1
    have hhead := hp.node_mem (List.mem_cons_self ..)
    obtain ⟨hhl, -⟩ := List.nodup_cons.mp (sublist_items.nodup hp.nodup)
    let node := indexToPtr x.freelistHead x.base x.size
    let n := PackedNode.count m node
    have hn₁ : n < packCapacity x.size := hc.2
    have hn₂ := count_lt m node
    have hcap₂ : packCapacity x.size < 2 ^ 16 := by
      rw [packCapacity]
      split
      · omega
      · exact Nat.mod_lt _ (by omega)
    let m₁ := PackedNode.setCount m node (n + 1)
    let m' := setSlotAt m₁ (packedIndexes node) n j
    have hcount : PackedNode.count m' node = n + 1 := by
      rw [count_setSlotAt, count_setCount (by omega)]
    have hnode : indexToPtr x.freelistHead x.base x.size = node := rfl
    have hsame : ∀ i ∈ l, SameSlot m m' x.base x.size i := by
      intro i hi
      have hne : i ≠ x.freelistHead := fun e => hhl (e ▸ hi)
      refine (SameSlot.of_store hne ?_ ?_ (n + 1)).trans (SameSlot.of_store hne ?_ ?_ j)
      · omega
      · omega
      · simp only [packedIndexes, PackedNode.bytes]; omega
      · simp only [packedIndexes, PackedNode.bytes]; omega
    have hpacked : nodePacked m' x.base x.size x.freelistHead =
        nodePacked m x.base x.size x.freelistHead ++ [j] := by
      rw [nodePacked, nodePacked, hnode, hcount, List.range_succ, List.map_append]
      congr 1
      · refine List.map_congr_left fun i hi => ?_
        have := List.mem_range.mp hi
        rw [slotAt_setSlotAt_of_ne (by omega), slotAt_setCount]
      · rw [List.map_singleton, slotAt_setSlotAt_self (by simp only [invalidIndex] at hji; omega)]
    have hl : FreeList m' x.base x.size x.freelistHead (x.freelistHead :: l) := by
      refine ⟨hp.list.chain.congr fun i hi => ?_, fun i hi => ?_⟩
      · rcases List.mem_cons.mp hi with rfl | hi
        · show PackedNode.nextIdx m' node = PackedNode.nextIdx m node
          rw [nextIdx_setSlotAt, nextIdx_setCount]
        · exact (hsame i hi).nextIdx_eq hz
      · rcases List.mem_cons.mp hi with rfl | hi
        · rw [hnode, hcount]
          omega
        · rw [(hsame i hi).count_eq hz]
          exact hp.list.room i (by simp [hi])
    obtain ⟨hadd, hp'⟩ := hp.given hj x.freelistHead hl
      (items_push hpacked fun i hi => (hsame i hi).packed_eq hz (hp.list.room i (by simp [hi])))
    have hmem := ((hp.free x.freelistHead).mp hhead).2
    have hslot : ∀ a k, node ≤ a → a + k ≤ node + x.size →
        FreeSlot x (fun i => O i ∧ i ≠ j) a k := fun a k h₁ h₂ =>
      ⟨x.freelistHead, hp.lt_total hhead, fun h => hmem h.1, h₁, h₂⟩
    refine ⟨m', _, _, ?_, hp', ?_, rfl, hadd, rfl⟩
    · simp only [give, hidx, if_pos hc]
      rfl
    · refine (Memory.Wrote.store m (n + 1) (hslot _ _ ?_ ?_)).trans
        (Memory.Wrote.store m₁ j (hslot _ _ ?_ ?_))
      · omega
      · omega
      · simp only [packedIndexes, PackedNode.bytes]; omega
      · simp only [packedIndexes, PackedNode.bytes]; omega
  · -- a new head
    let m₁ := PackedNode.setNextIdx m (x.addr j) x.freelistHead
    let m' := PackedNode.setCount m₁ (x.addr j) 0
    have hnode : indexToPtr j x.base x.size = x.addr j := rfl
    have hcount : PackedNode.count m' (x.addr j) = 0 := count_setCount (by omega)
    have hnext : nodeNext m' x.base x.size j = x.freelistHead := by
      rw [nodeNext, hnode, nextIdx_setCount, nextIdx_setNextIdx hp.head_lt]
    have hne : ∀ i ∈ nodes, i ≠ j := by
      rintro i hi rfl
      exact ((hp.free i).mp (hp.node_mem hi)).2 hj
    have hsame : ∀ i ∈ nodes, SameSlot m m' x.base x.size i := by
      intro i hi
      refine (SameSlot.of_store (hne i hi) ?_ ?_ x.freelistHead).trans
        (SameSlot.of_store (hne i hi) ?_ ?_ 0) <;> omega
    obtain ⟨hlist, hpacked⟩ := hp.list.congr hz hsame
    have hpj : nodePacked m' x.base x.size j = [] := by
      rw [nodePacked, hnode, hcount]
      rfl
    have hl : FreeList m' x.base x.size j (j :: nodes) := by
      refine ⟨⟨rfl, hji.ne, hnext ▸ hlist.chain⟩, fun i hi => ?_⟩
      rcases List.mem_cons.mp hi with rfl | hi
      · rw [hnode, hcount]
        exact Nat.zero_le _
      · exact hlist.room i hi
    obtain ⟨hadd, hp'⟩ := hp.given hj j hl (by
      rw [freeItems, items_cons, hpj, items_congr hpacked]
      rfl)
    have hslot : ∀ a k, x.addr j ≤ a → a + k ≤ x.addr j + x.size →
        FreeSlot x (fun i => O i ∧ i ≠ j) a k := fun a k h₁ h₂ =>
      ⟨j, hjt, fun h => h.2 rfl, h₁, h₂⟩
    refine ⟨m', _, _, ?_, hp', ?_, rfl, hadd, rfl⟩
    · simp only [give, hidx, if_neg hc]
      rfl
    · exact (Memory.Wrote.store m x.freelistHead (hslot _ _ (by omega) (by omega))).trans
        (Memory.Wrote.store m₁ 0 (hslot _ _ (by omega) (by omega)))

/-! ### Carving -/

/-- The inner loop packs the indexes from `i` on, up to the room of the node or the end of the
chunk, and writes nothing outside the slots it fills. -/
theorem packSlots_spec (slots cap chunkEnd : Nat) (P : Nat → Nat → Prop) :
    ∀ (fuel : Nat) (m : Memory) (packed i : Nat), packed ≤ cap → i ≤ chunkEnd →
      chunkEnd - i ≤ fuel → chunkEnd ≤ 2 ^ 16 → (∀ j < cap, P (slots + 2 * j) 2) →
      ∃ m' n, packSlots slots cap chunkEnd fuel m packed i = (m', packed + n, i + n) ∧
        packed + n ≤ cap ∧ i + n ≤ chunkEnd ∧ Memory.Wrote P m m' ∧
        (∀ j < packed, slotAt m' slots j = slotAt m slots j) ∧
        (∀ j < n, slotAt m' slots (packed + j) = i + j) ∧
        (∀ a k, a + k ≤ slots → m'.load a k = m.load a k)
  | 0, m, packed, i, hp, hi, hf, _, _ =>
      ⟨m, 0, rfl, hp, hi, Memory.Wrote.refl P m, fun _ _ => rfl, fun j hj => by omega,
        fun _ _ _ => rfl⟩
  | fuel + 1, m, packed, i, hp, hi, hf, hlim, hP => by
      by_cases hc : packed < cap ∧ i < chunkEnd
      · obtain ⟨m', n, hres, h₁, h₂, h₃, h₄, h₅, h₆⟩ := packSlots_spec slots cap chunkEnd P fuel
          (setSlotAt m slots packed i) (packed + 1) (i + 1) hc.1 hc.2 (by omega) hlim hP
        refine ⟨m', n + 1, ?_, by omega, by omega,
          (Memory.Wrote.store m i (hP packed hc.1)).trans h₃, fun j hj => ?_, fun j hj => ?_,
          fun a k hak => ?_⟩
        · rw [packSlots, if_pos hc, hres, Nat.add_right_comm packed, Nat.add_right_comm i]
          rfl
        · rw [h₄ j (by omega), slotAt_setSlotAt_of_ne (by omega)]
        · cases j with
          | zero =>
              rw [Nat.add_zero, h₄ packed (by omega), slotAt_setSlotAt_self (by omega),
                Nat.add_zero]
          | succ j =>
              have := h₅ j (by omega)
              rw [show packed + (j + 1) = packed + 1 + j by omega, this]
              omega
        · rw [h₆ a k hak]
          exact Memory.load_store_of_disjoint (by omega)
      · exact ⟨m, 0, by rw [packSlots, if_neg hc]; rfl, hp, hi, Memory.Wrote.refl P m,
          fun _ _ => rfl, fun j hj => by omega, fun _ _ _ => rfl⟩

/-- One node more: object `i` packs the `n` objects after it. -/
theorem PackedExact.carve {n : Nat}
    (hp : PackedExact m { x with nextUninitialized := i } nodes O) (hz : 8 ≤ x.size)
    (hn : i + 1 + n ≤ x.totalObjects) (hsame : ∀ j ∈ nodes, SameSlot m m' x.base x.size j)
    (hnext : nodeNext m' x.base x.size i = x.freelistHead)
    (hpacked : nodePacked m' x.base x.size i = List.range' (i + 1) n)
    (hcap : n ≤ packCapacity x.size) :
    add32 x.numFreeObjects (1 + n) = x.numFreeObjects + (1 + n) ∧
      PackedExact m' { x with
        freelistHead := i
        numFreeObjects := add32 x.numFreeObjects (1 + n)
        nextUninitialized := i + 1 + n } (i :: nodes) O := by
  obtain ⟨hlist, hpk⟩ := hp.list.congr hz hsame
  have hrest : items (nodePacked m' x.base x.size) nodes =
      items (nodePacked m x.base x.size) nodes := items_congr hpk
  have hitems : freeItems m' x.base x.size (i :: nodes) =
      List.range' i (n + 1) ++ freeItems m x.base x.size nodes := by
    rw [freeItems, items_cons, hpacked, hrest]
    rfl
  have hold : ∀ j, j ∈ freeItems m x.base x.size nodes ↔ j < i ∧ ¬ O j := hp.free
  have hout : ∀ j, O j → j < i := hp.out
  have hsmall : x.totalObjects ≤ invalidIndex := hp.small
  have hcnt : x.numFreeObjects = (freeItems m x.base x.size nodes).length := hp.count
  have hle : x.numFreeObjects ≤ i := hp.count_le
  have hadd : add32 x.numFreeObjects (1 + n) = x.numFreeObjects + (1 + n) := by
    simp only [add32, invalidIndex] at *
    omega
  have hcount : PackedNode.count m' (indexToPtr i x.base x.size) = n := by
    have := congrArg List.length hpacked
    simpa [nodePacked] using this
  refine ⟨hadd, ?_⟩
  exact
    { list :=
        { chain := ⟨rfl, by simp only [invalidIndex] at *; omega, hnext ▸ hlist.chain⟩
          room := fun j hj => by
            rcases List.mem_cons.mp hj with rfl | hj
            · exact hcount.le.trans hcap
            · exact hlist.room j hj }
      nodup := by
        show (freeItems m' x.base x.size (i :: nodes)).Nodup
        rw [hitems]
        refine List.Nodup.append List.nodup_range' hp.nodup fun j hj hj' => ?_
        have h₁ := List.mem_range'_1.mp hj
        have h₂ := (hold j).mp hj'
        omega
      free := fun j => by
        show j ∈ freeItems m' x.base x.size (i :: nodes) ↔ _
        rw [hitems, List.mem_append, List.mem_range'_1, hold j]
        constructor
        · rintro (h | ⟨h₁, h₂⟩)
          · exact ⟨by simp only; omega, fun hO => by have := hout j hO; omega⟩
          · exact ⟨by simp only; omega, h₂⟩
        · rintro ⟨h₁, h₂⟩
          simp only at h₁
          by_cases hj : j < i
          · exact .inr ⟨hj, h₂⟩
          · exact .inl (by omega)
      out := fun j hj => by have := hout j hj; simp only; omega
      carved := hn
      small := hsmall
      count := by
        show add32 x.numFreeObjects (1 + n) = (freeItems m' x.base x.size (i :: nodes)).length
        rw [hitems, List.length_append, List.length_range', hadd, hcnt]
        omega }

/-- The outer loop carves every object up to the end of the chunk. -/
theorem carveNodes_spec {chunkEnd : Nat} : ∀ (fuel : Nat) {m : Memory} {x : Span}
    {nodes : List Nat} {i : Nat} (freed : Nat),
    PackedExact m { x with nextUninitialized := i } nodes O → 8 ≤ x.size → i ≤ chunkEnd →
    chunkEnd ≤ x.totalObjects → chunkEnd - i ≤ fuel →
    ∃ m' y nodes', carveNodes x.size (packCapacity x.size) chunkEnd fuel m x i freed =
        (m', y, freed + (chunkEnd - i)) ∧
      PackedExact m' { y with nextUninitialized := chunkEnd } nodes' O ∧
      Memory.Wrote (FreeSlot x O) m m' ∧ x.Restocked y ∧
      y.numFreeObjects = x.numFreeObjects + (chunkEnd - i) ∧
      (i < chunkEnd → y.freelistHead ≠ invalidIndex)
  | 0, m, x, nodes, i, freed, hp, hz, hi, hc, hf => by
      obtain rfl : i = chunkEnd := by omega
      exact ⟨m, x, nodes, by simp [carveNodes], hp, Memory.Wrote.refl _ m, rfl, by simp,
        fun h => absurd h (lt_irrefl _)⟩
  | fuel + 1, m, x, nodes, i, freed, hp, hz, hi, hc, hf => by
      by_cases hlt : i < chunkEnd
      · have hsmall : x.totalObjects ≤ invalidIndex := hp.small
        have hout : ∀ j, O j → j < i := hp.out
        have hmod : i % 2 ^ 16 = i :=
          Nat.mod_eq_of_lt (by simp only [invalidIndex] at hsmall; omega)
        let node := indexToPtr i x.base x.size
        have hnode : indexToPtr i x.base x.size = node := rfl
        have hcap := packCapacity_le (z := x.size) (by omega)
        have hslot : ∀ a k, node ≤ a → a + k ≤ node + x.size → FreeSlot x O a k :=
          fun a k h₁ h₂ => ⟨i, by omega, fun hO => by have := hout i hO; omega, h₁, h₂⟩
        -- everything this round writes lies inside object `i`
        let In : Nat → Nat → Prop := fun a k => node ≤ a ∧ a + k ≤ node + x.size
        have hIn : ∀ j < packCapacity x.size, In (packedIndexes node + 2 * j) 2 := by
          intro j hj
          simp only [In, packedIndexes, PackedNode.bytes]
          omega
        let m₁ := PackedNode.setNextIdx m node x.freelistHead
        obtain ⟨m₂, n, hres, hn₁, hn₂, hw, -, hfill, hframe⟩ := packSlots_spec (packedIndexes node)
          (packCapacity x.size) chunkEnd In (chunkEnd - i) m₁ 0 (i + 1) (Nat.zero_le _) hlt
          (by omega) (by simp only [invalidIndex] at hsmall; omega) hIn
        rw [Nat.zero_add] at hres hn₁
        let m₃ := PackedNode.setCount m₂ node n
        have hw₃ : Memory.Wrote In m m₃ :=
          ((Memory.Wrote.store m x.freelistHead ⟨le_refl _, by omega⟩).trans hw).trans
            (Memory.Wrote.store m₂ n ⟨by omega, by omega⟩)
        have hsame : ∀ j ∈ nodes, SameSlot m m₃ x.base x.size j := by
          intro j hj a h₁ h₂
          have hji : j ≠ i := by
            have : j < i := ((hp.free j).mp (hp.node_mem hj)).1
            omega
          have hd := indexToPtr_disjoint x.base x.size hji
          refine hw₃.byte_eq fun b l hb => ?_
          have := hb.1
          have := hb.2
          omega
        have hnext : nodeNext m₃ x.base x.size i = x.freelistHead := by
          rw [nodeNext, hnode, nextIdx_setCount]
          show m₂.load node 2 = _
          rw [hframe node 2 (by simp only [packedIndexes, PackedNode.bytes]; omega)]
          exact nextIdx_setNextIdx hp.head_lt
        have hpacked : nodePacked m₃ x.base x.size i = List.range' (i + 1) n := by
          rw [nodePacked, hnode, count_setCount (by
            simp only [invalidIndex] at hsmall; omega), List.range'_eq_map_range]
          refine List.map_congr_left fun j hj => ?_
          have := hfill j (List.mem_range.mp hj)
          rw [Nat.zero_add] at this
          rw [slotAt_setCount, this]
        obtain ⟨hadd, hp'⟩ := hp.carve hz (by omega) hsame hnext hpacked hn₁
        let x₁ : Span := { x with
          freelistHead := i, numFreeObjects := add32 x.numFreeObjects (1 + n) }
        obtain ⟨m', y, nodes', hrec, hp'', hw', hy, hcnt, hhead⟩ := carveNodes_spec fuel (x := x₁)
          (freed + (1 + n)) hp' hz hn₂ hc (by omega)
        refine ⟨m', y, nodes', ?_, hp'', (hw₃.mono fun a k h => hslot a k h.1 h.2).trans hw', hy,
          ?_, fun _ => ?_⟩
        · rw [carveNodes, if_pos hlt]
          simp only [hmod, hnode]
          rw [show PackedNode.setNextIdx m node x.freelistHead = m₁ from rfl, hres,
            show freed + (chunkEnd - i) = freed + (1 + n) + (chunkEnd - (i + 1 + n)) by omega]
          exact hrec
        · rw [hcnt]
          simp only [x₁]
          omega
        · by_cases hmore : i + 1 + n < chunkEnd
          · exact hhead hmore
          · -- nothing is left to carve, so node `i` is the head
            have hdone : carveNodes x₁.size (packCapacity x₁.size) chunkEnd fuel m₃ x₁
                (i + 1 + n) (freed + (1 + n)) = (m₃, x₁, freed + (1 + n)) := by
              cases fuel with
              | zero => rfl
              | succ f => rw [carveNodes, if_neg hmore]
            have hyx : x₁ = y := congrArg (fun r => r.2.1) (hdone.symm.trans hrec)
            rw [← hyx]
            simp only [x₁, invalidIndex] at *
            omega
      · obtain rfl : i = chunkEnd := by omega
        exact ⟨m, x, nodes, by simp [carveNodes], hp, Memory.Wrote.refl _ m, rfl, by simp,
          fun h => absurd h (lt_irrefl _)⟩

/-- **`populate`** carves a chunk of a span whose list is empty, unless none is left. -/
theorem populate_spec (hp : PackedExact m x nodes O) (hz : 8 ≤ x.size) :
    ∃ m' y nodes' freed, populate m x.size x = (m', y, freed) ∧ PackedExact m' y nodes' O ∧
      Memory.Wrote (FreeSlot x O) m m' ∧ x.Restocked y ∧
      y.numFreeObjects = x.numFreeObjects + freed ∧
      (x.nextUninitialized < x.totalObjects → y.freelistHead ≠ invalidIndex ∧
        y.nextUninitialized =
          min x.totalObjects (x.nextUninitialized + max (pageSize / x.size) 1)) ∧
      (x.nextUninitialized = x.totalObjects → y = x) := by
  by_cases hlt : x.totalObjects ≤ x.nextUninitialized
  · exact ⟨m, x, nodes, 0, by rw [populate, if_pos hlt], hp, Memory.Wrote.refl _ m, rfl, rfl,
      fun h => absurd h (not_lt.mpr hlt), fun _ => rfl⟩
  · let chunkEnd := min x.totalObjects (x.nextUninitialized + max (pageSize / x.size) 1)
    have hmax : 1 ≤ max (pageSize / x.size) 1 := le_max_right _ _
    have hle : chunkEnd ≤ x.totalObjects := Nat.min_le_left _ _
    have hgt : x.nextUninitialized < chunkEnd := by
      simp only [chunkEnd, lt_min_iff]
      omega
    obtain ⟨m', y, nodes', hres, hp', hw, hy, hcnt, hhead⟩ := carveNodes_spec
      (chunkEnd - x.nextUninitialized) 0 hp hz hgt.le hle (le_refl _)
    refine ⟨m', { y with nextUninitialized := chunkEnd }, nodes', _, ?_, hp', hw, ?_, hcnt,
      fun _ => ⟨hhead hgt, rfl⟩, fun h => absurd h.ge hlt⟩
    · rw [populate, if_neg hlt]
      simp only [show min x.totalObjects (x.nextUninitialized + max (pageSize / x.size) 1) =
        chunkEnd from rfl, hres, Nat.zero_add]
    · rw [Span.Restocked] at hy ⊢
      rw [hy]

end TieredAllocator
