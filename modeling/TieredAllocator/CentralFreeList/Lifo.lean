import TieredAllocator.CentralFreeList.Runs

/-!
# Central free list — last in, first out

The packed list of a span is a stack: `give` adds an object at its head and `take` takes it off
again (`give_push`, `take_pop`).  Hence a batch of objects given back to the current span, and as
many objects taken, are each other's reverse, and the lists are as before (`batch_back`).
-/

namespace TieredAllocator
open Lib

variable {m m' : Memory} {x : Span} {u u' : Unrolled Nat} {base z i j : Nat}

/-- The list of the span at `base` is `u`. -/
structure Reads (m : Memory) (base z : Nat) (u : Unrolled Nat) : Prop where
  list : FreeList m base z (u.head invalidIndex) u.nodes
  packed : ∀ n ∈ u, nodePacked m base z n.1 = n.2

/-- `[a, a + k)` lies inside one of the objects `P`. -/
def InObject (base z : Nat) (P : Nat → Prop) (a k : Nat) : Prop :=
  ∃ i, P i ∧ indexToPtr i base z ≤ a ∧ a + k ≤ indexToPtr i base z + z

namespace Reads

theorem of_freeList {head : Nat} {nodes : List Nat} (hl : FreeList m base z head nodes) :
    ∃ u : Unrolled Nat, Reads m base z u ∧ u.head invalidIndex = head ∧ u.nodes = nodes := by
  let u : Unrolled Nat := nodes.map fun i => (i, nodePacked m base z i)
  have hnodes : u.nodes = nodes := by
    simp only [u, Unrolled.nodes, List.map_map]
    exact List.map_id nodes
  have hhead : u.head invalidIndex = head := by
    cases nodes with
    | nil => exact hl.chain.symm
    | cons i l => exact hl.chain.1.symm
  refine ⟨u, ⟨by rw [hhead, hnodes]; exact hl, fun n hn => ?_⟩, hhead, hnodes⟩
  obtain ⟨i, -, rfl⟩ := List.mem_map.mp hn
  rfl

/-- Other objects do not matter. -/
theorem congr (hr : Reads m base z u) (hz : 8 ≤ z)
    (hs : ∀ i ∈ u.nodes, SameSlot m m' base z i) : Reads m' base z u := by
  obtain ⟨hlist, hpacked⟩ := hr.list.congr hz hs
  refine ⟨hlist, fun n hn => ?_⟩
  rw [hpacked n.1 (List.mem_map_of_mem hn)]
  exact hr.packed n hn

variable {js : List Nat}

/-- The head packs what its entry says. -/
theorem count_eq (hr : Reads m base z ((i, js) :: u)) :
    PackedNode.count m (indexToPtr i base z) = js.length := by
  have h := congrArg List.length (hr.packed _ List.mem_cons_self)
  rwa [nodePacked, List.length_map, List.length_range] at h

theorem next_eq (hr : Reads m base z ((i, js) :: u)) :
    PackedNode.nextIdx m (indexToPtr i base z) = u.head invalidIndex := by
  have hchain : Chain (nodeNext m base z) invalidIndex (nodeNext m base z i) u.nodes :=
    hr.list.chain.2.2
  cases u with
  | nil => exact hchain
  | cons n u => exact hchain.1

theorem tail (hr : Reads m base z ((i, js) :: u)) : Reads m base z u where
  list :=
    { chain := hr.next_eq ▸ hr.list.chain.2.2
      room := fun i hi => hr.list.room i (List.mem_cons_of_mem _ hi) }
  packed n hn := hr.packed n (List.mem_cons_of_mem _ hn)

/-- A node before a list. -/
theorem cons (hr : Reads m base z u) (hi : i < invalidIndex)
    (hnext : PackedNode.nextIdx m (indexToPtr i base z) = u.head invalidIndex)
    (hroom : js.length ≤ packCapacity z) (hp : nodePacked m base z i = js) :
    Reads m base z ((i, js) :: u) where
  list :=
    { chain := ⟨rfl, hi.ne, by rw [nodeNext, hnext]; exact hr.list.chain⟩
      room := fun k hk => by
        rcases List.mem_cons.mp hk with rfl | hk
        · have hlen := congrArg List.length hp
          rw [nodePacked, List.length_map, List.length_range] at hlen
          exact hlen ▸ hroom
        · exact hr.list.room k hk }
  packed n hn := by
    rcases List.mem_cons.mp hn with rfl | hn
    · exact hp
    · exact hr.packed n hn

end Reads

theorem packCapacity_lt (z : Nat) : packCapacity z < 2 ^ 16 := by
  rw [packCapacity]
  split
  · exact Nat.two_pow_pos 16
  · exact Nat.mod_lt _ (Nat.two_pow_pos 16)

/-! ### One object -/

/-- Without room at the head, the object becomes the head. -/
theorem give_head (hr : Reads m x.base x.size u) (hh : x.freelistHead = u.head invalidIndex)
    (hz : 8 ≤ x.size) (hlim : x.freelistHead < 2 ^ 16) (hju : j ∉ u.nodes) (hj : j < invalidIndex)
    (hfull : ¬ (x.freelistHead ≠ invalidIndex ∧
      PackedNode.count m (indexToPtr x.freelistHead x.base x.size) < packCapacity x.size)) :
    ∃ m', give m x.size x (x.addr j) = (m', { x with
        freelistHead := j, numFreeObjects := add32 x.numFreeObjects 1 }) ∧
      Reads m' x.base x.size ((j, []) :: u) ∧
      Memory.Wrote (InObject x.base x.size fun i => i = j ∨ i ∈ u.nodes) m m' := by
  have hidx : ptrToIndex (x.addr j) x.base x.size = j :=
    ptrToIndex_addr hz (by simp only [invalidIndex] at hj; omega)
  let m₁ := PackedNode.setNextIdx m (x.addr j) x.freelistHead
  let m' := PackedNode.setCount m₁ (x.addr j) 0
  have hcount : PackedNode.count m' (indexToPtr j x.base x.size) = 0 := count_setCount (by omega)
  have hnext : PackedNode.nextIdx m' (indexToPtr j x.base x.size) = u.head invalidIndex := by
    rw [← hh]
    exact nextIdx_setCount.trans (nextIdx_setNextIdx hlim)
  have hsame : ∀ i ∈ u.nodes, SameSlot m m' x.base x.size i := by
    intro i hi
    have hne : i ≠ j := fun e => hju (e ▸ hi)
    have haddr : x.addr j = indexToPtr j x.base x.size := rfl
    exact (SameSlot.of_store hne (le_refl _) (by omega) x.freelistHead).trans
      (SameSlot.of_store hne (by omega) (by omega) 0)
  have hpacked : nodePacked m' x.base x.size j = [] := by
    rw [nodePacked, hcount]
    rfl
  have hslot : ∀ a k, x.addr j ≤ a → a + k ≤ x.addr j + x.size →
      InObject x.base x.size (fun i => i = j ∨ i ∈ u.nodes) a k := fun a k h₁ h₂ =>
    ⟨j, .inl rfl, h₁, h₂⟩
  refine ⟨m', ?_, (hr.congr hz hsame).cons hj hnext (Nat.zero_le _) hpacked, ?_⟩
  · simp only [give, hidx, if_neg hfull]
    rfl
  · exact (Memory.Wrote.store m x.freelistHead (hslot _ _ (le_refl _) (by omega))).trans
      (Memory.Wrote.store m₁ 0 (hslot _ _ (by omega) (by omega)))

/-- With room at the head, the object is packed into it. -/
theorem give_packed {js : List Nat} (hr : Reads m x.base x.size ((i, js) :: u))
    (hh : x.freelistHead = i) (hz : 8 ≤ x.size) (hnd : i ∉ u.nodes) (hi : i < invalidIndex)
    (hj : j < invalidIndex) (hroom : js.length < packCapacity x.size) :
    ∃ m', give m x.size x (x.addr j) = (m', { x with
        freelistHead := i, numFreeObjects := add32 x.numFreeObjects 1 }) ∧
      Reads m' x.base x.size ((i, js ++ [j]) :: u) ∧
      Memory.Wrote (InObject x.base x.size fun k => k = j ∨ k ∈ i :: u.nodes) m m' := by
  subst hh
  have hidx : ptrToIndex (x.addr j) x.base x.size = j :=
    ptrToIndex_addr hz (by simp only [invalidIndex] at hj; omega)
  have hcap := packCapacity_le (z := x.size) (by omega)
  have hcap₂ := packCapacity_lt x.size
  let node := indexToPtr x.freelistHead x.base x.size
  have hlen : PackedNode.count m node = js.length := hr.count_eq
  let m₁ := PackedNode.setCount m node (js.length + 1)
  let m' := setSlotAt m₁ (packedIndexes node) js.length j
  have hcount : PackedNode.count m' node = js.length + 1 := by
    rw [count_setSlotAt, count_setCount (by omega)]
  have hnext : PackedNode.nextIdx m' node = u.head invalidIndex := by
    rw [nextIdx_setSlotAt, nextIdx_setCount]
    exact hr.next_eq
  have hpacked : nodePacked m' x.base x.size x.freelistHead = js ++ [j] := by
    have hold := hr.packed _ List.mem_cons_self
    simp only [nodePacked, show PackedNode.count m (indexToPtr x.freelistHead x.base x.size) =
      js.length from hlen] at hold
    rw [nodePacked, show PackedNode.count m' (indexToPtr x.freelistHead x.base x.size) =
      js.length + 1 from hcount, List.range_succ, List.map_append]
    congr 1
    · refine (List.map_congr_left fun k hk => ?_).trans hold
      have := List.mem_range.mp hk
      rw [slotAt_setSlotAt_of_ne (by omega), slotAt_setCount]
    · rw [List.map_singleton, slotAt_setSlotAt_self (by simp only [invalidIndex] at hj; omega)]
  have hsame : ∀ k ∈ u.nodes, SameSlot m m' x.base x.size k := by
    intro k hk
    have hne : k ≠ x.freelistHead := fun e => hnd (e ▸ hk)
    refine (SameSlot.of_store hne ?_ ?_ (js.length + 1)).trans (SameSlot.of_store hne ?_ ?_ j)
    · omega
    · omega
    · simp only [packedIndexes, PackedNode.bytes]; omega
    · simp only [packedIndexes, PackedNode.bytes]; omega
  have hslot : ∀ a k, node ≤ a → a + k ≤ node + x.size →
      InObject x.base x.size (fun k => k = j ∨ k ∈ x.freelistHead :: u.nodes) a k :=
    fun a k h₁ h₂ => ⟨x.freelistHead, .inr List.mem_cons_self, h₁, h₂⟩
  refine ⟨m', ?_, (hr.tail.congr hz hsame).cons hi hnext ?_ hpacked, ?_⟩
  · simp only [give, hidx]
    rw [show PackedNode.count m (indexToPtr x.freelistHead x.base x.size) = js.length from hlen,
      if_pos ⟨hi.ne, hroom⟩]
  · rw [List.length_append]
    exact hroom
  · refine (Memory.Wrote.store m (js.length + 1) (hslot _ _ ?_ ?_)).trans
      (Memory.Wrote.store m₁ j (hslot _ _ ?_ ?_))
    · omega
    · omega
    · simp only [packedIndexes, PackedNode.bytes]; omega
    · simp only [packedIndexes, PackedNode.bytes]; omega

/-- **`give`** adds the object at the head. -/
theorem give_push (hr : Reads m x.base x.size u) (hh : x.freelistHead = u.head invalidIndex)
    (hz : 8 ≤ x.size) (hlt : ∀ i ∈ u.nodes, i < invalidIndex) (hnd : (j :: u.nodes).Nodup)
    (hj : j < invalidIndex) :
    ∃ m', give m x.size x (x.addr j) = (m', { x with
        freelistHead := (u.push (packCapacity x.size) j).head invalidIndex
        numFreeObjects := add32 x.numFreeObjects 1 }) ∧
      Reads m' x.base x.size (u.push (packCapacity x.size) j) ∧
      Memory.Wrote (InObject x.base x.size fun i => i = j ∨ i ∈ u.nodes) m m' := by
  obtain ⟨hju, hnd⟩ := List.nodup_cons.mp hnd
  cases u with
  | nil =>
      refine give_head hr hh hz ?_ hju hj fun h => h.1 hh
      rw [hh]
      decide
  | cons n u =>
      obtain ⟨i, js⟩ := n
      have hi : i < invalidIndex := hlt i List.mem_cons_self
      by_cases hroom : js.length < packCapacity x.size
      · rw [Unrolled.push, if_pos hroom]
        exact give_packed hr hh hz (List.nodup_cons.mp hnd).1 hi hj hroom
      · rw [Unrolled.push, if_neg hroom]
        refine give_head hr hh hz ?_ hju hj fun h => hroom ?_
        · rw [show x.freelistHead = i from hh]
          simp only [invalidIndex] at hi
          omega
        · rw [show x.freelistHead = i from hh, hr.count_eq] at h
          exact h.2

/-- **`take`** takes the object last added. -/
theorem take_pop (hr : Reads m x.base x.size u) (hh : x.freelistHead = u.head invalidIndex)
    (hz : 8 ≤ x.size) (hlt : ∀ i ∈ u.nodes, i < invalidIndex) (hnd : u.nodes.Nodup)
    (hpop : u.pop = some (j, u')) :
    ∃ m', take m x.size x = (x.addr j, m', { x with
        freelistHead := u'.head invalidIndex
        numFreeObjects := sub32 x.numFreeObjects 1 }) ∧
      Reads m' x.base x.size u' ∧
      Memory.Wrote (InObject x.base x.size (· ∈ u.nodes)) m m' := by
  cases u with
  | nil => cases hpop
  | cons n u =>
      obtain ⟨i, js⟩ := n
      obtain rfl : x.freelistHead = i := hh
      have hlen : PackedNode.count m (indexToPtr x.freelistHead x.base x.size) = js.length :=
        hr.count_eq
      rcases List.eq_nil_or_concat js with rfl | ⟨js, k, rfl⟩
      · -- the head packs nothing and is taken itself
        obtain ⟨rfl, rfl⟩ := Prod.mk.inj (Option.some.inj hpop)
        refine ⟨m, ?_, hr.tail, Memory.Wrote.refl _ m⟩
        simp only [take, hlen, List.length_nil, lt_irrefl, if_false]
        rw [hr.next_eq]
        rfl
      · -- the last index the head packs is taken
        rw [List.concat_eq_append] at *
        obtain ⟨rfl, rfl⟩ : k = j ∧ (x.freelistHead, js) :: u = u' := by
          simpa [Unrolled.pop] using hpop
        let node := indexToPtr x.freelistHead x.base x.size
        let m' := PackedNode.setCount m node js.length
        have hlen₂ := count_lt m node
        rw [List.length_append, List.length_singleton] at hlen
        have hcount : PackedNode.count m' node = js.length :=
          count_setCount (by simp only [node] at hlen₂; omega)
        have hold : nodePacked m x.base x.size x.freelistHead = js ++ [k] :=
          hr.packed _ List.mem_cons_self
        rw [nodePacked, hlen, List.range_succ, List.map_append] at hold
        obtain ⟨hpacked, hlast⟩ := List.append_inj' hold rfl
        have hsame : ∀ i ∈ Unrolled.nodes u, SameSlot m m' x.base x.size i := by
          intro i hi
          have hne : i ≠ x.freelistHead := fun e => (List.nodup_cons.mp hnd).1 (e ▸ hi)
          exact SameSlot.of_store hne (by omega) (by omega) js.length
        have hroom : js.length + 1 ≤ packCapacity x.size :=
          hlen ▸ hr.list.room _ List.mem_cons_self
        refine ⟨m', ?_, (hr.tail.congr hz hsame).cons (hlt _ List.mem_cons_self)
          (nextIdx_setCount.trans hr.next_eq) (Nat.le_of_succ_le hroom) ?_,
          Memory.Wrote.store m _ ?_⟩
        · simp only [take, hlen, Nat.succ_pos, if_true, Nat.add_sub_cancel, slotAt_setCount]
          rw [List.map_singleton] at hlast
          rw [(List.cons.inj hlast).1]
          rfl
        · rw [nodePacked, show PackedNode.count m' (indexToPtr x.freelistHead x.base x.size) =
            js.length from hcount]
          exact (List.map_congr_left fun k _ => slotAt_setCount).trans hpacked
        · exact ⟨x.freelistHead, List.mem_cons_self, by omega, by omega⟩

/-! ### A batch -/

namespace Backend

variable {table : Nat → SizeClassInfo} {b b' b'' : Backend} {out : Nat → Multiset Nat}
  {L S : Nat → List SpanId} {c n p : Nat} {s : SpanId} {k : Kernel} {ps : List Nat}

/-- One object more. -/
theorem allocateBatch_snoc (h : allocateBatch k c n b = some (ps, b')) (hlen : ps.length = n)
    (ha : b'.allocate k c = some (p, b'')) (hp : p ≠ 0) :
    allocateBatch k c (n + 1) b = some (ps ++ [p], b'') := by
  induction n generalizing b ps b' with
  | zero =>
      obtain ⟨rfl, rfl⟩ := Prod.mk.inj (Option.some.inj h)
      simp [allocateBatch, ha, hp]
  | succ n ih =>
      rw [allocateBatch, Option.bind_eq_bind, Option.bind_eq_some_iff] at h
      obtain ⟨⟨q, b₁⟩, hq, h⟩ := h
      by_cases hq0 : q = 0
      · simp only [if_pos hq0, Option.some.injEq, Prod.mk.injEq] at h
        rw [← h.1] at hlen
        cases hlen
      · simp only [if_neg hq0, Option.bind_eq_bind, Option.bind_eq_some_iff] at h
        obtain ⟨⟨qs, b₂⟩, hqs, h⟩ := h
        obtain ⟨rfl, rfl⟩ := Prod.mk.inj (Option.some.inj h)
        rw [allocateBatch, hq]
        simp only [Option.bind_eq_bind, Option.bind_some, if_neg hq0,
          ih hqs (Nat.succ.inj hlen) ha]
        rfl

/-- The nodes are free objects. -/
theorem Inv.nodes_free (hi : Inv table b out L S) (hs : s ∈ S c) (hx : b.pageHeap.spans s = some x)
    (hr : Reads b.mem x.base x.size u) (hh : x.freelistHead = u.head invalidIndex) :
    u.nodes.Nodup ∧ ∀ i ∈ u.nodes, i < x.totalObjects ∧ i < invalidIndex ∧ x.addr i ∉ out c := by
  obtain ⟨nodes, hex⟩ := (hi.serves c s x hs hx).exact
  obtain rfl : u.nodes = nodes := hex.list.chain.unique (hh ▸ hr.list.chain)
  refine ⟨sublist_items.nodup hex.nodup, fun i hi => ?_⟩
  have hfree := hex.node_mem hi
  have hit := hex.lt_total hfree
  exact ⟨hit, hex.lt_invalid hit, fun h => ((hex.free i).mp hfree).2 ⟨hit, h⟩⟩

/-- The list with one object given back. -/
theorem Inv.give_back (hi : Inv table b out L S) (hs : s ∈ S c)
    (hx : b.pageHeap.spans s = some x) (hr : Reads b.mem x.base x.size u)
    (hh : x.freelistHead = u.head invalidIndex) (hj : j < x.totalObjects)
    (hp : x.addr j ∈ out c) (hroom : x.numFreeObjects + 1 < x.totalObjects) :
    ∃ m', b.deallocate c (x.addr j) = some (served b c s m' { x with
        freelistHead := (u.push (packCapacity x.size) j).head invalidIndex
        numFreeObjects := x.numFreeObjects + 1 } (add32 (b.freeList c).numFree 1)) ∧
      Reads m' x.base x.size (u.push (packCapacity x.size) j) ∧
      Memory.Wrote (InObject x.base x.size fun i => i = j ∨ i ∈ u.nodes) b.mem m' := by
  have hsx := hi.serves c s x hs hx
  obtain ⟨nodes, hex⟩ := hsx.exact
  obtain ⟨hnd, hfree⟩ := hi.nodes_free hs hx hr hh
  have hz : (b.freeList c).size = x.size := (hi.config c).1.trans hsx.size_eq.symm
  have hz0 : (b.freeList c).size ≠ 0 := by
    have := hsx.roomy
    omega
  have hadd : add32 x.numFreeObjects 1 = x.numFreeObjects + 1 := by
    have := hex.count_lt
    simp only [add32, invalidIndex] at *
    omega
  obtain ⟨m', hgive, hr', hw⟩ := give_push hr hh hsx.roomy (fun i h => (hfree i h).2.1)
    (List.nodup_cons.mpr ⟨fun h => (hfree j h).2.2 hp, hnd⟩) (hex.lt_invalid hj)
  rw [hadd] at hgive
  have hpos : 0 < x.size := lt_of_lt_of_le (by decide) hsx.roomy
  have hfor : b.pageHeap.spanFor (x.addr j) = some s :=
    hi.spanFor_eq hs hx hj (le_refl _) (Nat.lt_add_of_pos_right hpos)
  have hgive' := (congrArg (fun z => give b.mem z x (x.addr j)) hz).trans hgive
  refine ⟨m', ?_, hr', hw⟩
  rw [deallocate, if_neg (hi.ne_zero hp), hfor]
  simp only [deallocateLocked, if_neg hz0, hx, Option.bind_eq_bind, Option.bind_some, hgive']
  rw [if_neg (show ¬ (x.numFreeObjects + 1 = x.totalObjects) by omega)]
  rfl

/-- The object last added to the current span is the one `allocate` takes. -/
theorem allocate_last {y : Span} (hcur : (b.freeList c).currentSpan = some s)
    (hx : b.pageHeap.spans s = some x) (hsize : (b.freeList c).size = x.size) (hz : 8 ≤ x.size)
    (hr : Reads b.mem x.base x.size u) (hh : x.freelistHead = u.head invalidIndex)
    (hlt : ∀ i ∈ u.nodes, i < invalidIndex) (hnd : u.nodes.Nodup) (hpop : u.pop = some (j, u'))
    (hy : y = { x with
      freelistHead := u'.head invalidIndex, numFreeObjects := sub32 x.numFreeObjects 1 }) :
    ∃ m', (∀ k, b.allocate k c =
        some (x.addr j, served b c s m' y (sub32 (b.freeList c).numFree 1))) ∧
      Reads m' x.base x.size u' ∧ Memory.Wrote (InObject x.base x.size (· ∈ u.nodes)) b.mem m' := by
  obtain ⟨m', htake, hr', hw⟩ := take_pop hr hh hz hlt hnd hpop
  have hne : x.freelistHead ≠ invalidIndex := by
    cases u with
    | nil => cases hpop
    | cons n u => exact hh ▸ (hlt _ List.mem_cons_self).ne
  have havail : x.hasAvailableObjects = true := by
    rw [Span.hasAvailableObjects, Bool.or_eq_true, decide_eq_true_eq]
    exact .inl hne
  have htake' := (congrArg (fun z => take b.mem z x) hsize).trans htake
  refine ⟨m', fun k => ?_, hr', hw⟩
  simp only [allocate, chooseSpan, currentAvailable, hcur, hx, Option.map_some, havail,
    Option.bind_eq_bind, Option.bind_some, if_true, Option.isNone_some, Bool.false_eq_true,
    if_false, takeFrom, if_neg hne, htake']
  simp only [hy, served, hcur]

/-- **A batch**, given back to the current span and taken again. -/
theorem Inv.batch_back (hi : Inv table b out L S) (hs : s ∈ S c)
    (hcur : (b.freeList c).currentSpan = some s) (hx : b.pageHeap.spans s = some x)
    (hr : Reads b.mem x.base x.size u) (hh : x.freelistHead = u.head invalidIndex)
    (hps : (ps : Multiset Nat) ≤ out c) (hin : ∀ p ∈ ps, ∃ i < x.totalObjects, p = x.addr i)
    (hroom : x.numFreeObjects + ps.length < x.totalObjects) :
    ∃ b₁ m, deallocateBatch c ps b = some b₁ ∧
      (∀ k, allocateBatch k c ps.length b₁ = some (ps.reverse, { b with mem := m })) ∧
      Reads m x.base x.size u ∧
      Memory.Wrote (FreeSlot x fun i => x.addr i ∈ out c ∧ x.addr i ∉ ps) b.mem m := by
  induction ps generalizing b out L S x u with
  | nil => exact ⟨b, b.mem, rfl, fun k => rfl, hr, Memory.Wrote.refl _ _⟩
  | cons p ps ih =>
      obtain ⟨j, hj, rfl⟩ := hin p List.mem_cons_self
      rw [← Multiset.cons_coe] at hps
      have hp : x.addr j ∈ out c := Multiset.mem_of_le hps (Multiset.mem_cons_self _ _)
      rw [List.length_cons] at hroom
      have hsx := hi.serves c s x hs hx
      obtain ⟨nodes, hex⟩ := hsx.exact
      obtain ⟨hnd, hfree⟩ := hi.nodes_free hs hx hr hh
      obtain ⟨m₁, hres, hr₁, hw₁⟩ := hi.give_back hs hx hr hh hj hp (by omega)
      let y : Span := { x with
        freelistHead := (u.push (packCapacity x.size) j).head invalidIndex
        numFreeObjects := x.numFreeObjects + 1 }
      let b₁ := served b c s m₁ y (add32 (b.freeList c).numFree 1)
      have hy : b₁.pageHeap.spans s = some y := served_spans
      have hl : b₁.freeList c = { b.freeList c with numFree := add32 (b.freeList c).numFree 1 } :=
        Function.update_self ..
      have hlose : lose out c (x.addr j) c = (out c).erase (x.addr j) := Function.update_self ..
      -- the list after the first object
      obtain ⟨s', x', b', L', S', hfor, hx', hs', hres', hi', -, -, hS, -⟩ := deallocate_spec hi hp
      obtain rfl := Option.some.inj (hres'.symm.trans hres)
      obtain ⟨s'', x'', i, hs'', hx'', hix, hpi, hfor'⟩ := hi.span_of_out hp
      obtain rfl := Option.some.inj (hfor'.symm.trans hfor)
      obtain ⟨rfl, -⟩ := hi.addr_unique hs hs'' hx hx'' hj hix hpi
      obtain rfl := Option.some.inj (hx.symm.trans hx')
      rw [if_neg (by omega)] at hS
      subst hS
      obtain ⟨b₂, m₂, hdealloc, halloc, hr₂, hw₂⟩ := ih hi' hs (by rw [hl]; exact hcur) hy hr₁ rfl
        (by
          rw [hlose]
          have := Multiset.erase_le_erase (x.addr j) hps
          rwa [Multiset.erase_cons_head] at this)
        (fun q hq => hin q (List.mem_cons_of_mem _ hq))
        (show x.numFreeObjects + 1 + ps.length < x.totalObjects by omega)
      -- taking it off again
      have hsub : sub32 (x.numFreeObjects + 1) 1 = x.numFreeObjects := by
        have := hex.count_lt
        simp only [sub32, invalidIndex] at *
        omega
      have hnum : sub32 (add32 (b.freeList c).numFree 1) 1 = (b.freeList c).numFree := by
        rw [hi.counted c]
        simp only [sub32, add32]
        omega
      have hpush : ∀ i ∈ (u.push (packCapacity x.size) j).nodes, i = j ∨ i ∈ u.nodes := by
        intro i hi
        rcases Unrolled.nodes_push (packCapacity x.size) j u with h | h
        · exact .inr (h ▸ hi)
        · exact List.mem_cons.mp (h ▸ hi)
      have hpushnd : (u.push (packCapacity x.size) j).nodes.Nodup := by
        rcases Unrolled.nodes_push (packCapacity x.size) j u with h | h
        · exact h ▸ hnd
        · exact h ▸ List.nodup_cons.mpr ⟨fun h => (hfree j h).2.2 hp, hnd⟩
      have hpushlt : ∀ i ∈ (u.push (packCapacity x.size) j).nodes, i < invalidIndex := by
        intro i hi
        rcases hpush i hi with rfl | hi
        · exact hex.lt_invalid hj
        · exact (hfree i hi).2.1
      obtain ⟨m₃, hlast, hr₃, hw₃⟩ := allocate_last (b := { b₁ with mem := m₂ }) (y := x)
        (show (b₁.freeList c).currentSpan = some s by rw [hl]; exact hcur) hy
        (show (b₁.freeList c).size = y.size by
          rw [hl]
          exact (hi.config c).1.trans hsx.size_eq.symm)
        hsx.roomy hr₂ rfl hpushlt hpushnd Unrolled.pop_push (by rw [hsub, ← hh])
      have hback : served { b₁ with mem := m₂ } c s m₃ x (sub32 (b₁.freeList c).numFree 1) =
          { b with mem := m₃ } := by
        rw [hl, hnum]
        exact (served_served b c s m₁ m₃ y x _ _).trans
          (served_self (b := { b with mem := m₃ }) hx)
      refine ⟨b₂, m₃, ?_, fun k => ?_, hr₃, ?_⟩
      · rw [deallocateBatch, hres]
        exact hdealloc
      · rw [List.reverse_cons, List.length_cons]
        refine allocateBatch_snoc (halloc k) List.length_reverse ?_ (hi.ne_zero hp)
        exact (hlast k).trans (congrArg (fun b => some (x.addr j, b)) hback)
      · -- `give` and `take` write into the object and into nodes of the list
        have hslot : ∀ a k, InObject x.base x.size (fun i => i = j ∨ i ∈ u.nodes) a k →
            FreeSlot x (fun i => x.addr i ∈ out c ∧ x.addr i ∉ x.addr j :: ps) a k := by
          rintro a k ⟨i, rfl | hi, h₁, h₂⟩
          · exact ⟨i, hj, fun h => h.2 List.mem_cons_self, h₁, h₂⟩
          · exact ⟨i, (hfree i hi).1, fun h => (hfree i hi).2.2 h.1, h₁, h₂⟩
        refine ((hw₁.mono hslot).trans (hw₂.mono ?_)).trans (hw₃.mono fun a k h => hslot a k ?_)
        · rintro a k ⟨i, hit, hnot, h₁, h₂⟩
          refine ⟨i, hit, fun h => hnot ⟨?_, fun hmem => h.2 (List.mem_cons_of_mem _ hmem)⟩, h₁, h₂⟩
          rw [hlose]
          exact (hi.nodup c).mem_erase_iff.mpr ⟨fun e => h.2 (List.mem_cons.mpr (.inl e)), h.1⟩
        · obtain ⟨i, hi, h₁, h₂⟩ := h
          exact ⟨i, hpush i hi, h₁, h₂⟩

/-- Of an object that is out. -/
theorem Inv.span_object (hi : Inv table b out L S) (hs : s ∈ S c)
    (hx : b.pageHeap.spans s = some x) (hp : p ∈ out c) (hfor : b.pageHeap.spanFor p = some s) :
    ∃ i < x.totalObjects, p = x.addr i := by
  obtain ⟨t, y, i, -, hy, hiy, hpi, hfor'⟩ := hi.span_of_out hp
  obtain rfl := Option.some.inj (hfor'.symm.trans hfor)
  obtain rfl := Option.some.inj (hx.symm.trans hy)
  exact ⟨i, hiy, hpi⟩

end Backend

namespace Central

variable {table : Nat → SizeClassInfo} {v : Central} {as : List CentralCall} {c : Nat} {s : SpanId}
  {mem : Memory} {foreign : Nat → Bool}

/-- **Last in, first out.**  After each run of the calls: if the objects `ps`, which are out and
belong to the current span of their class, are given back as a batch, which does not free the whole
span, then `allocate_batch` takes the same objects in reverse.  Everything is then as before, but
for bytes inside objects that were free or have been given back. -/
theorem batch_returns (hok : ∀ c, ClassOk (table c))
    (r : calls.Run (init mem foreign table) as v)
    (hcur : (v.backend.freeList c).currentSpan = some s)
    (hx : v.backend.pageHeap.spans s = some x) {ps : List Nat} (hps : (ps : Multiset Nat) ≤ v.out c)
    (hin : ∀ p ∈ ps, v.backend.pageHeap.spanFor p = some s)
    (hroom : x.numFreeObjects + ps.length < x.totalObjects) :
    ∃ b₁ m, Backend.deallocateBatch c ps v.backend = some b₁ ∧
      (∀ k, Backend.allocateBatch k c ps.length b₁ =
        some (ps.reverse, { v.backend with mem := m })) ∧
      ∀ a, (∀ i < x.totalObjects, x.addr i ∉ v.out c ∨ x.addr i ∈ ps →
        a < x.addr i ∨ x.addr i + x.size ≤ a) → m.byte a = v.backend.mem.byte a := by
  obtain ⟨L, S, hi⟩ := r.invariant (I := Inv table) (fun hi ha h => step_inv hok hi ha h) inv_init
  have hs := hi.current c s hcur
  obtain ⟨nodes, hex⟩ := (hi.serves c s x hs hx).exact
  obtain ⟨u, hr, hh, -⟩ := Reads.of_freeList hex.list
  obtain ⟨b₁, m, hdealloc, halloc, -, hw⟩ := hi.batch_back hs hcur hx hr hh.symm hps
    (fun p hp => hi.span_object hs hx (Multiset.mem_of_le hps hp) (hin p hp)) hroom
  refine ⟨b₁, m, hdealloc, halloc, fun a ha => hw.byte_eq ?_⟩
  rintro b k ⟨i, hit, hnot, h₁, h₂⟩ ⟨h₃, h₄⟩
  have := ha i hit (by
    by_cases ho : x.addr i ∈ v.out c
    · exact .inr (not_not.mp fun hmem => hnot ⟨ho, hmem⟩)
    · exact .inl ho)
  omega

/-- Two of five objects of a span with seven go back and forth. -/
theorem batch_returns_sample :
    ∃ v b₁ m, calls.Run (init Memory.zero (fun _ => false) sizeClass)
        [.allocateBatch (PageHeap.kernelOf [16]) 21 5] v ∧
      Backend.deallocateBatch 21 [67840, 65536] v.backend = some b₁ ∧
      Backend.allocateBatch (PageHeap.kernelOf []) 21 2 b₁ =
        some ([65536, 67840], { v.backend with mem := m }) := by
  have h : ((calls.replay (init Memory.zero (fun _ => false) sizeClass)
      [.allocateBatch (PageHeap.kernelOf [16]) 21 5]).map fun v =>
        decide ((v.backend.freeList 21).currentSpan = some 0 ∧
          (v.backend.pageHeap.spans 0).map (fun x => (x.numFreeObjects, x.totalObjects)) =
            some (1, 7) ∧ (([67840, 65536] : List Nat) : Multiset Nat) ≤ v.out 21 ∧
          ∀ p ∈ [67840, 65536], v.backend.pageHeap.spanFor p = some 0)) = some true := by
    decide +kernel
  obtain ⟨v, hv, htrue⟩ := Option.map_eq_some_iff.mp h
  obtain ⟨hcur, hcounts, hout, hin⟩ := of_decide_eq_true htrue
  obtain ⟨x, hx, hxc⟩ := Option.map_eq_some_iff.mp hcounts
  obtain ⟨hfree, htotal⟩ := Prod.mk.inj hxc
  obtain ⟨b₁, m, hdealloc, halloc, -⟩ := batch_returns sizeClass_classOk (System.Run.of_replay hv)
    hcur hx hout hin (by rw [hfree, htotal]; decide)
  exact ⟨v, b₁, m, System.Run.of_replay hv, hdealloc, halloc _⟩

end Central

end TieredAllocator
