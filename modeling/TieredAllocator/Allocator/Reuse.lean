import TieredAllocator.Allocator.Heights

/-!
# Allocator — a block comes back

`deallocate` leaves its block on top of the slab of its CPU: if the slab is full, it first drains a
batch, which is at least one pointer and at most the slab, and what becomes of the batch does not
concern the slabs (`deallocate_ran`).  So the next `allocate` of the class on that CPU returns the
block, and if the slab was not full, the two calls cancel out (`free_then_allocate`).
-/

namespace TieredAllocator
open Lib

namespace Slabs

/-- A pop right after a push returns the pointer, and leaves each byte but those of the slot. -/
theorem pop_push {m : Memory} {base count cpu c p : Nat} (hc : c < numSizeClasses)
    (hcpu : cpu < count) (hp : p < 2 ^ 64)
    (hroom : current m (getSlabs base cpu) c < slabCapacity c) :
    ∃ m₁ m₂, slabPush m base count cpu c p = (true, m₁) ∧ slabPop m₁ base count cpu c = (p, m₂) ∧
      ∀ x, ¬ (getSlabs base cpu + slabPointersOffset +
            8 * (slabOffset c + current m (getSlabs base cpu) c) ≤ x ∧
          x < getSlabs base cpu + slabPointersOffset +
            8 * (slabOffset c + current m (getSlabs base cpu) c) + 8) →
        m₂.byte x = m.byte x := by
  have hcap := slabCapacity_lt hc
  set slab := getSlabs base cpu
  set cur := current m slab c with hcur
  let m₁ := setCurrent (setPointer m slab (slabOffset c + cur) p) slab c (cur + 1)
  have hcur₁ : current m₁ slab c = cur + 1 := current_setCurrent (by omega)
  have htop : pointer m₁ slab (slabOffset c + (cur + 1) - 1) = p :=
    (pointer_setCurrent hc).trans (pointer_setPointer hp)
  refine ⟨m₁, setCurrent m₁ slab c cur, ?_, ?_, fun x hx => ?_⟩
  · simp only [slabPush, getSlabsChecked, if_neg (not_le.mpr hcpu), fallbackDeallocate]
    exact if_pos hroom
  · simp only [slabPop, getSlabsChecked, if_neg (not_le.mpr hcpu), fallbackAllocate]
    show (if 0 < current m₁ slab c then _ else _) = _
    rw [hcur₁, if_pos (Nat.succ_pos cur), htop]
    rfl
  · -- the count is as before, the slot is the only other store
    refine Memory.byte_store_load fun hcount => ?_
    exact (Memory.store_byte_of_not_mem hcount).trans (Memory.store_byte_of_not_mem hx)

end Slabs

namespace World

variable {ι : Type} [Fintype ι] {w w' : World} {γ : ι → Option Held} {t : ι} {g : Held}
  {a : Action} {e : Env} {c cpu p : Nat} {k : Kernel}

namespace Inv

/-- What a call holds, it holds once. -/
theorem held_nodup (hi : w.Inv γ) (hg : γ t = some g) (c : Nat) : (g.objs c).Nodup := by
  obtain ⟨L, S, hb⟩ := hi.backend
  refine Multiset.nodup_of_le ?_ (hb.nodup c)
  have hle := callObjects_le γ t c
  rw [hg] at hle
  refine hle.trans ?_
  simp only [handed, Pi.add_apply]
  exact (Multiset.le_add_left _ _).trans
    ((Multiset.le_add_right _ _).trans (Multiset.le_add_right _ _))

/-- A live block is found by its address. -/
theorem find_live (hi : w.Inv γ) {b : Block} (hb : b ∈ w.live) :
    (w.live.find? fun b' => b'.ptr = b.ptr) = some b := by
  obtain ⟨L, S, hback⟩ := hi.backend
  cases hf : w.live.find? fun b' => b'.ptr = b.ptr with
  | none =>
      have := List.find?_eq_none.mp hf b hb
      simp at this
  | some b' =>
      have hmem := List.mem_of_find?_eq_some hf
      have hptr : b'.ptr = b.ptr := by simpa using List.find?_some hf
      by_contra hne
      -- one address, one span, one class
      obtain ⟨s, -, -, hs, -, -, -, hfor⟩ := hback.span_of_out (live_handed hb)
      obtain ⟨s', -, -, hs', -, -, -, hfor'⟩ := hback.span_of_out (live_handed hmem)
      rw [hptr] at hfor'
      obtain rfl := Option.some.inj (hfor.symm.trans hfor')
      have hsc := hback.apart _ _ s hs hs'
      -- and the class holds each object once
      have hother : b' ∈ w.live.erase b := (List.mem_erase_of_ne fun h => hne (by rw [h])).mpr hmem
      have hnodup : (liveObjects w.live b.sc).Nodup := by
        refine Multiset.nodup_of_le ?_ (hback.nodup b.sc)
        simp only [handed, Pi.add_apply, add_assoc]
        exact Multiset.le_add_right _ _
      rw [liveObjects_erase hb, Pi.add_apply, inClass, Pi.single_eq_same, Multiset.singleton_add,
        Multiset.nodup_cons] at hnodup
      exact hnodup.1 (hptr ▸ hsc ▸ mem_liveObjects hother)

variable [DecidableEq ι]

/-- The loop that drains a slab takes the height of the stack, or as many as asked for. -/
theorem drain_ran (hi : w.Inv (Function.update γ t (some g))) (hc : c < numSizeClasses)
    (hcpu : cpu < w.allocator.slabCount) (k : Kernel) (left : Nat) (batch : List Nat) :
    ∃ out w' g' as, (Program.drain c left batch).Ran World.perform ⟨cpu, k⟩ w as (batch ++ out) w' ∧
      w'.Inv (Function.update γ t (some g')) ∧ g'.objs = inClass c out + g.objs ∧
      (∀ q ∈ out, q ≠ 0) ∧ out.length = min left (w.height cpu c) ∧
      w'.height cpu c + out.length = w.height cpu c ∧
      w'.allocator.slabCount = w.allocator.slabCount ∧ ∀ a ∈ as, a = .slabPop c := by
  induction left generalizing w g batch with
  | zero =>
      refine ⟨[], w, g, [], ?_, hi, by simp, by simp, by simp, rfl, rfl, by simp⟩
      rw [List.append_nil]
      exact .done batch
  | succ left ih =>
      rcases hi.pop_cases hc hcpu k with ⟨h0, hres⟩ | ⟨q, m', hq, hres, hheight⟩
      · refine ⟨[], w, g, [.slabPop c], ?_, hi, by simp, by simp, by simp [h0], rfl, rfl, by simp⟩
        rw [List.append_nil]
        exact .act hres (.done batch)
      · -- the pop keeps the invariant, and the pointer joins what is held
        have hgt : Function.update γ t (some g) t = some g := Function.update_self ..
        obtain ⟨r, w₁, hr, hi₁⟩ := hi.slabPop hgt hc ⟨cpu, k⟩
        obtain ⟨rfl, rfl⟩ := Prod.mk.inj (Option.some.inj (hres.symm.trans hr))
        rw [Function.update_idem, Held.track, if_neg hq] at hi₁
        obtain ⟨out, w', g', as, hran, hi', hobjs, hne, hlen, hh, hcount, has⟩ :=
          ih hi₁ hcpu (batch ++ [q])
        have hlist : batch ++ [q] ++ out = batch ++ q :: out := by simp
        rw [hlist] at hran
        refine ⟨q :: out, w', g', .slabPop c :: as, .act hres ?_, hi', ?_, ?_, ?_, ?_, hcount, ?_⟩
        · show Prog.Ran _ (if q = 0 then _ else _) _ _ _ _ _
          rw [if_neg hq]
          exact hran
        · rw [hobjs, inClass_cons]
          show inClass c out + (inClass c {q} + g.objs) = _
          abel
        · intro p hp
          rcases List.mem_cons.mp hp with rfl | hp
          · exact hq
          · exact hne p hp
        · rw [List.length_cons, hlen]
          omega
        · rw [List.length_cons]
          omega
        · intro a ha
          rcases List.mem_cons.mp ha with rfl | ha
          · rfl
          · exact has a ha

/-- What becomes of a batch does not concern the slabs, nor the objects that are not in it. -/
theorem releaseBatch_ran (hi : w.Inv (Function.update γ t (some g))) (hc : c < numSizeClasses)
    (hcpu : cpu < w.allocator.slabCount) (k : Kernel) {batch : List Nat}
    (hne : ∀ p ∈ batch, p ≠ 0) (hle : (batch : Multiset Nat) ≤ g.objs c) :
    ∃ w' g' as, (Program.releaseBatch c batch).Ran World.perform ⟨cpu, k⟩ w as () w' ∧
      w'.Inv (Function.update γ t (some g')) ∧ g'.objs + inClass c batch = g.objs ∧
      w'.allocator.slabCount = w.allocator.slabCount ∧ w'.height cpu c = w.height cpu c ∧
      ∀ s p, .centralDeallocate c s p ∈ as → p ∈ batch := by
  let φ : Action → Prop := fun a => a.OffSlabs ∧ ∀ s p, a = .centralDeallocate c s p → p ∈ batch
  have hall : (Program.releaseBatch c batch).All φ := by
    refine Program.releaseBatch_all ⟨trivial, fun _ _ h => by cases h⟩ fun p hp => ⟨?_, fun s => ?_⟩
    · exact ⟨trivial, fun _ _ h => by cases h⟩
    · refine ⟨trivial, fun s' p' h => ?_⟩
      cases h
      exact hp
  let J : World → Held → Prop := fun w₁ g₁ => w₁.Inv (Function.update γ t (some g₁)) ∧
    w₁.allocator.slabCount = w.allocator.slabCount ∧ w₁.height cpu c = w.height cpu c
  have hstart : J w g := ⟨hi, rfl, rfl⟩
  obtain ⟨v, w', g', hexec, ⟨hi', hcount, hheight⟩, hobjs⟩ := Prog.exec_spec (J := J)
    (fun {w₁ g₁ a} e h ha => by
      have hgt : Function.update γ t (some g₁) t = some g₁ := Function.update_self ..
      obtain ⟨r, w₂, hr, hans, hi₂⟩ := h.1.perform hgt ha.1 e
      obtain ⟨hcount, hheight⟩ := h.1.offSlabs hgt ha.1 ha.2.1 hr
      refine ⟨r, w₂, hr, hans, by simpa using hi₂, hcount.trans h.2.1, ?_⟩
      exact (hheight cpu (h.2.1 ▸ hcpu) c hc).trans h.2.2)
    (Prog.wp_all (Program.releaseBatch_wp hne hle) hall) hstart fun _ => (⟨cpu, k⟩ : Env)
  exact ⟨w', g', _, ⟨hexec, rfl⟩, hi', hobjs, hcount, hheight,
    fun s p h => (hall.actions _ h).2 s p rfl⟩

/-- The slow end of `deallocate` makes room: it ends with a push on a slab that is not full. -/
theorem deallocateSlow_ran (hi : w.Inv (Function.update γ t (some g))) (h₁ : 1 ≤ c)
    (hc : c < numSizeClasses) (hcpu : cpu < w.allocator.slabCount) (k : Kernel)
    (hobjs : g.objs = inClass c {p}) (hfull : ¬ w.height cpu c < slabCapacity c) :
    ∃ (w₀ : World) (as : List Action), w₀.allocator.slabCount = w.allocator.slabCount ∧
      w₀.height cpu c < slabCapacity c ∧ (∀ s, .centralDeallocate c s p ∉ as) ∧
      ∀ w', w₀.perform ⟨cpu, k⟩ (.slabPush c p) = some (true, w') →
        (Program.deallocateSlow c (sizeClass c).batchSize p).Ran World.perform ⟨cpu, k⟩ w as ()
          w' := by
  obtain ⟨-, -, -, -, hbatch, -⟩ := sizeClass_ok h₁ hc
  have hcap := batchSize_le_slabCapacity hc
  obtain ⟨batch, w₁, g₁, as₁, hran₁, hi₁, hobjs₁, hne, hlen, hheight₁, hcount₁, has₁⟩ :=
    hi.drain_ran hc hcpu k (sizeClass c).batchSize []
  rw [List.nil_append] at hran₁
  have hpos : 0 < batch.length := by omega
  -- the block itself is not in the batch
  have hnot : p ∉ batch := by
    have hgt : Function.update γ t (some g₁) t = some g₁ := Function.update_self ..
    have hnodup := hi₁.held_nodup hgt c
    rw [hobjs₁, hobjs, ← inClass_add, inClass, Pi.single_eq_same, add_comm,
      Multiset.singleton_add, Multiset.nodup_cons] at hnodup
    exact hnodup.1
  have hle : (batch : Multiset Nat) ≤ g₁.objs c := by
    rw [← inClass_le, hobjs₁]
    exact le_self_add
  obtain ⟨w₂, g₂, as₂, hran₂, -, -, hcount₂, hheight₂, has₂⟩ :=
    hi₁.releaseBatch_ran hc (hcount₁ ▸ hcpu) k hne hle
  have hmid : Prog.Ran World.perform
      (if 0 < batch.length then Program.releaseBatch c batch else pure ()) ⟨cpu, k⟩ w₁ as₂ ()
        w₂ := by
    rw [if_pos hpos]
    exact hran₂
  have hbound : w.height cpu c ≤ slabCapacity c := hi.bounded cpu hcpu c hc
  refine ⟨w₂, as₁ ++ (as₂ ++ [.slabPush c p]), hcount₂.trans hcount₁, by omega, fun s hs => ?_,
    fun w' hpush => hran₁.bind (hmid.bind (.perform_bind hpush (.done ())))⟩
  · simp only [List.mem_append, List.mem_singleton] at hs
    rcases hs with hs | hs | hs
    · cases has₁ _ hs
    · exact hnot (has₂ s p hs)
    · cases hs

/-- **`deallocate`** of a live block alone ends with a push on a stack that is not full: the stack
as it was, if it had room. -/
theorem deallocate_ran (hi : w.Inv (Function.update γ t (some g))) (h₁ : 1 ≤ c)
    (hc : c < numSizeClasses) (hcpu : cpu < w.allocator.slabCount) (k : Kernel)
    (hobjs : g.objs = inClass c {p}) :
    ∃ (w₀ : World) (as : List Action), w₀.allocator.slabCount = w.allocator.slabCount ∧
      w₀.height cpu c < slabCapacity c ∧ (∀ s, .centralDeallocate c s p ∉ as) ∧
      (w.height cpu c < slabCapacity c → w₀ = w) ∧
      ∀ w', w₀.perform ⟨cpu, k⟩ (.slabPush c p) = some (true, w') →
        (Program.deallocate p).Ran World.perform ⟨cpu, k⟩ w as () w' := by
  have hgt : Function.update γ t (some g) t = some g := Function.update_self ..
  have hmem : p ∈ g.objs c := by rw [hobjs]; simp [inClass]
  -- the two reads
  obtain ⟨r, w₁, hfor, ⟨s, rfl⟩, hi₁⟩ := hi.spanFor hgt hmem ⟨cpu, k⟩
  obtain rfl : w = w₁ := (Prod.mk.inj (Option.some.inj hfor)).2
  rw [Function.update_idem] at hi₁
  have hgt₁ := Function.update_self (β := fun _ => Option Held) t
    (some (g.track (.spanFor p) (some s))) γ
  have hroute : (g.track (.spanFor p) (some s)).route p = some s := Function.update_self ..
  obtain ⟨size, w₂, hsize, hans, -⟩ := hi₁.spanSize hgt₁ hmem hroute ⟨cpu, k⟩
  obtain rfl : w = w₂ := by
    simp only [World.perform, Allocator.perform, Option.map_map, Option.map_eq_some_iff] at hsize
    obtain ⟨x, -, hx⟩ := hsize
    exact (Prod.mk.inj hx).2
  obtain ⟨-, -, rfl⟩ := hans c p hmem hroute
  have hpos := (sizeClass_ok h₁ hc).1
  -- what is left after the reads
  have hreads : ∀ {as : List Action} {w' : World},
      (Program.slabPush c p >>= fun ok => if ok = true then pure () else
        Program.deallocateSlow c (sizeClass c).batchSize p).Ran World.perform ⟨cpu, k⟩ w as () w' →
      (Program.deallocate p).Ran World.perform ⟨cpu, k⟩ w (.spanFor p :: .spanSize s :: as) ()
        w' := by
    intro as w' h
    refine .perform_bind hfor (.perform_bind hsize ?_)
    simp only [sizeClassToIdx_size hc]
    rwa [if_neg (by omega)]
  by_cases hroom : w.height cpu c < slabCapacity c
  · refine ⟨w, [.spanFor p, .spanSize s, .slabPush c p], rfl, hroom, fun s' hs => ?_, fun _ => rfl,
      fun w' hpush => hreads (.perform_bind hpush (.done ()))⟩
    simp at hs
  · obtain ⟨w₀, as, hcount, hheight, hnot, hslow⟩ := hi.deallocateSlow_ran h₁ hc hcpu k hobjs hroom
    refine ⟨w₀, .spanFor p :: .spanSize s :: .slabPush c p :: as, hcount, hheight, fun s' hs => ?_,
      fun h => absurd h hroom,
      fun w' hpush => hreads (.perform_bind (push_full hcpu p k hroom) (hslow w' hpush))⟩
    simp only [List.mem_cons] at hs
    rcases hs with hs | hs | hs | hs
    · cases hs
    · cases hs
    · cases hs
    · exact hnot s' hs

end Inv

end World

variable {ι : Type} [Fintype ι]

/-- A pop from a slab that is not empty is all there is to `allocate`. -/
theorem allocate_ran {w w' : World} {e : Env} {n p : Nat} (hn : n ≤ maxSize) (hp : p ≠ 0)
    (hpop : w.perform e (.slabPop (roundSizeClass n).2) = some (p, w')) :
    (Program.allocate n).Ran World.perform e w [.slabPop (roundSizeClass n).2] p w' := by
  obtain ⟨hsc, h₁, h₂, -, -⟩ := roundSizeClass_spec hn
  have hsize := (sizeClass_ok h₁ h₂).1
  have hne : (roundSizeClass n).1.size ≠ 0 := by rw [hsc]; omega
  simp only [Program.allocate, if_neg hne]
  refine .perform_bind hpop ?_
  rw [if_pos hp]
  exact .done p

/-- **A block comes back.**  In each state that any number of threads reach, for a live block `b`,
a CPU with a slab and a size `n` of the class of `b`: `deallocate(b)` and then `allocate(n)` on that
CPU return `b`, and `b` is not given back to the central list in between.  If the stack of the class
on that CPU was not full, the allocator is afterwards as before, but for the slot above the top of
the stack. -/
theorem free_then_allocate [DecidableEq ι] {mem : Memory} {foreign : Nat → Bool}
    {slabPage slabCount : Nat} {ls : List (Step ι Call Env ClientWrite)} {u : Process ι}
    (r : (Process.system ι).Run (Process.init ι mem foreign slabPage slabCount) ls u) {t : ι}
    (ht : u.threads t = .idle) {b : Block} (hb : b ∈ u.state.live) {cpu n : Nat}
    (hcpu : cpu < u.state.allocator.slabCount) (hn : (roundSizeClass n).2 = b.sc) (k k' : Kernel) :
    ∃ (g : Held) (w₀ w₁ w₂ : World),
      u.state.begin (.deallocate b.ptr) = some (g, w₀) ∧
      machine.alone (fun _ => ⟨cpu, k⟩) u.state (.deallocate b.ptr) = some ((), w₁) ∧
      (∀ s, .centralDeallocate b.sc s b.ptr ∉
        (Program.deallocate b.ptr).actions World.perform (fun _ => ⟨cpu, k⟩) w₀) ∧
      machine.alone (fun _ => ⟨cpu, k'⟩) w₁ (.allocate n) = some (b.ptr, w₂) ∧
      (u.state.height cpu b.sc < slabCapacity b.sc →
        ∃ m, w₂.allocator = u.state.allocator.setMem m ∧
          ∀ x, ¬ (Slabs.getSlabs u.state.allocator.perCpuCaches cpu + slabPointersOffset +
                8 * (slabOffset b.sc + u.state.height cpu b.sc) ≤ x ∧
              x < Slabs.getSlabs u.state.allocator.perCpuCaches cpu + slabPointersOffset +
                8 * (slabOffset b.sc + u.state.height cpu b.sc) + 8) →
            m.byte x = u.state.allocator.backend.mem.byte x) := by
  obtain ⟨hi, -⟩ := ok_of_run r
  have hidle : Machine.ghosts u t = none := by
    rw [Machine.ghosts, ht]
    rfl
  have hbegin : u.state.begin (.deallocate b.ptr) =
      some (({} : Held).gain b.sc {b.ptr}, { u.state with live := u.state.live.erase b }) := by
    rw [World.begin, hi.find_live hb]
    rfl
  obtain ⟨h₁, hc, hne, hlt⟩ := hi.range (World.Inv.live_handed hb)
  have hsize : n ≤ maxSize := by
    by_contra hgt
    rw [roundSizeClass_of_gt (not_le.mp hgt)] at hn
    omega
  obtain ⟨hi₀, -⟩ := hi.begin hidle hbegin
  obtain ⟨w, as, hcount, hheight, hnot, hroom, hran⟩ :=
    hi₀.deallocate_ran h₁ hc hcpu k (add_zero _)
  obtain ⟨m₁, m₂, hpush, hpop, hbytes⟩ := Slabs.pop_push hc (hcount ▸ hcpu) hlt hheight
  let w₁ : World := { w with allocator := w.allocator.setMem m₁ }
  let w₂ : World := { w with allocator := w.allocator.setMem m₂ }
  have hdealloc := hran w₁ (by
    simp only [World.perform, Allocator.perform, hpush]
    rfl)
  have halloc := allocate_ran (w := w₁) (e := ⟨cpu, k'⟩) hsize hne
    (show w₁.perform ⟨cpu, k'⟩ (.slabPop _) = some (b.ptr, w₂) by
    rw [hn]
    show Option.map _ (some ((Slabs.slabPop m₁ w.allocator.perCpuCaches w.allocator.slabCount cpu
      b.sc).1, (w.allocator.setMem m₁).setMem (Slabs.slabPop m₁ w.allocator.perCpuCaches
        w.allocator.slabCount cpu b.sc).2)) = _
    rw [hpop]
    rfl)
  refine ⟨_, _, w₁, w₂.finish (.allocate n) b.ptr, hbegin, ?_, ?_, ?_, fun h => ?_⟩
  · show Option.bind (World.begin u.state (.deallocate b.ptr)) _ = _
    rw [hbegin]
    show Option.map _ (Prog.exec World.perform (Program.deallocate b.ptr) _ _) = _
    rw [hdealloc.result]
    rfl
  · rw [hdealloc.did]
    exact hnot
  · show Option.map _ (Prog.exec World.perform (Program.allocate n) _ w₁) = _
    rw [halloc.result]
    rfl
  · obtain rfl := hroom h
    rw [World.finish_allocator]
    exact ⟨m₂, rfl, hbytes⟩

/-- The block of `sampleSteps` comes back, on the CPU whose stack of its class is empty. -/
theorem free_then_allocate_sample : ∃ (u : Process (Fin 2)) (w₁ w₂ : World),
    machine.alone (fun _ => ⟨0, fun _ => none⟩) u.state (.deallocate 196608) = some ((), w₁) ∧
      machine.alone (fun _ => ⟨0, fun _ => none⟩) w₁ (.allocate 18000) =
        some ((196608 : Nat), w₂) := by
  have h : (((Process.system (Fin 2)).replay
      (Process.init (Fin 2) Memory.zero (fun _ => false) 1000 1) sampleSteps).map fun u =>
        (decide ((⟨196608, 20000⟩ : Block) ∈ u.state.live), (Machine.ghosts u 0).isNone,
          u.state.allocator.slabCount)) = some (true, true, 1) := by
    decide +kernel
  obtain ⟨u, hu, heq⟩ := Option.map_eq_some_iff.mp h
  obtain ⟨hlive, hidle, hcount⟩ : decide ((⟨196608, 20000⟩ : Block) ∈ u.state.live) = true ∧
      (Machine.ghosts u 0).isNone = true ∧ u.state.allocator.slabCount = 1 := by simpa using heq
  have ht : u.threads 0 = .idle := by
    cases hth : u.threads 0 with
    | idle => rfl
    | busy c g p => simp [Machine.ghosts, hth, Thread.ghost] at hidle
  obtain ⟨g, w₀, w₁, w₂, -, hfree, -, halloc, -⟩ := free_then_allocate (System.Run.of_replay hu) ht
    (of_decide_eq_true hlive) (show 0 < u.state.allocator.slabCount by omega)
    (show (roundSizeClass 18000).2 = _ by decide) (fun _ => none) fun _ => none
  exact ⟨u, w₁, w₂, hfree, halloc⟩

end TieredAllocator
