import TieredAllocator.Allocator.Reuse
import TieredAllocator.CentralFreeList.Release
import TieredAllocator.CentralFreeList.Supply

/-!
# Allocator — growth

The central list of a class gets a new span only for a request that finds nothing: the stack of its
CPU is empty, the transfer cache is empty, and no span of the list has an object left
(`World.Inv.atMost_fetch`).  At that moment each object of the class is in a live block, on the
stack of another CPU, or in the batch being fetched, which gives the bound of `no_blow_up`.

`Calls` is the allocator called from one place at a time, each call on a CPU of its own choice;
`peak` keeps the largest number of blocks of each class that were live together.
-/

namespace TieredAllocator
open Lib

theorem Action.NoFetch.ne {a : Action} (h : a.NoFetch) (c : Nat) : a ≠ .centralAllocate c := by
  rintro rfl
  exact h

namespace Backend

variable {table : Nat → SizeClassInfo} {b : Backend} {out : Nat → Multiset Nat}
  {L S : Nat → List SpanId}

/-- The pages of the spans of a list. -/
def pages (b : Backend) (l : List SpanId) : Nat :=
  (l.map fun s => ((b.pageHeap.spans s).map Span.numPages).getD 0).sum

/-- The spans of a class are all of one size. -/
theorem Inv.total_eq (hi : Inv table b out L S) (c : Nat) :
    b.total (S c) = (S c).length * spanObjects (table c) := by
  have hspan : ∀ s ∈ S c, ((b.pageHeap.spans s).map Span.totalObjects).getD 0 =
      spanObjects (table c) := by
    intro s hs
    obtain ⟨x, hx, hsx⟩ := hi.used hs
    rw [hx, spanObjects, ← hsx.size_eq, ← hsx.pages_eq]
    exact hsx.total
  rw [total, List.map_congr_left hspan, List.map_const', List.sum_replicate, smul_eq_mul]

theorem Inv.pages_eq (hi : Inv table b out L S) (c : Nat) :
    b.pages (S c) = (S c).length * (table c).pages := by
  have hspan : ∀ s ∈ S c, ((b.pageHeap.spans s).map Span.numPages).getD 0 = (table c).pages := by
    intro s hs
    obtain ⟨x, hx, hsx⟩ := hi.used hs
    rw [hx]
    exact hsx.pages_eq
  rw [pages, List.map_congr_left hspan, List.map_const', List.sum_replicate, smul_eq_mul]

end Backend

namespace Slabs

/-- With the stack of one CPU empty, the others hold what they have room for. -/
theorem card_objects_le {m : Memory} {base count cpu c : Nat} (hb : Bounded m base count)
    (hcpu : cpu < count) (hc : c < numSizeClasses) (h0 : current m (getSlabs base cpu) c = 0) :
    Multiset.card (objects m base count c) ≤ (count - 1) * slabCapacity c := by
  rw [objects, if_pos hc, Multiset.card_sum]
  have hmem := Finset.mem_range.mpr hcpu
  have hstack : ∀ x, Multiset.card (stack m base x c : Multiset Nat) =
      current m (getSlabs base x) c := fun x => stack_length
  rw [← Finset.add_sum_erase _ _ hmem, hstack, h0, Nat.zero_add]
  refine (Finset.sum_le_card_nsmul _ _ (slabCapacity c) fun x hx => ?_).trans ?_
  · rw [hstack]
    exact hb x (Finset.mem_range.mp (Finset.mem_of_mem_erase hx)) c hc
  · rw [Finset.card_erase_of_mem hmem, Finset.card_range, smul_eq_mul]

end Slabs

namespace World

variable {ι : Type} [Fintype ι] {w w' : World} {γ : ι → Option Held} {t : ι} {g : Held}
  {a : Action} {e : Env} {c n : Nat}

/-- The spans on the list of `c` have at most `n` objects. -/
def AtMost (w : World) (c n : Nat) : Prop :=
  ∃ l, SpanList w.allocator.backend.pageHeap.spans (w.allocator.backend.freeList c).spanList l ∧
    w.allocator.backend.total l ≤ n

theorem atMost_iff {out : Nat → Multiset Nat} {L S : Nat → List SpanId}
    (hb : Backend.Inv sizeClass w.allocator.backend out L S) :
    w.AtMost c n ↔ (S c).length * spanObjects (sizeClass c) ≤ n := by
  rw [← hb.total_eq]
  constructor
  · rintro ⟨l, hl, hle⟩
    rwa [hl.linked.unique (hb.list c).linked] at hle
  · exact fun h => ⟨S c, hb.list c, h⟩

omit [Fintype ι] in
theorem AtMost.congr (h : w.AtMost c n) (ha : w'.allocator = w.allocator) : w'.AtMost c n := by
  rwa [AtMost, ha]

theorem AtMost.mono {n' : Nat} (h : w.AtMost c n) (hn : n ≤ n') : w.AtMost c n' := by
  obtain ⟨l, hl, hle⟩ := h
  exact ⟨l, hl, hle.trans hn⟩

theorem SameClass.atMost (hs : SameClass c w w') (h : w.AtMost c n) : w'.AtMost c n := by
  obtain ⟨l, hl, hle⟩ := h
  have hspan : ∀ s ∈ l, w'.allocator.backend.pageHeap.spans s =
      w.allocator.backend.pageHeap.spans s := by
    intro s hs'
    obtain ⟨x, hx, hx', -⟩ := hs.spans l hl s hs'
    rw [hx, hx']
  refine ⟨l, ?_, ?_⟩
  · rw [hs.list]
    exact hl.congr hspan
  · rwa [Backend.total, List.map_congr_left fun s hs' => by rw [hspan s hs']]

/-- The live blocks of a class. -/
def liveCount (w : World) (c : Nat) : Nat := w.live.countP fun b => b.sc = c

theorem card_liveObjects (live : List Block) (c : Nat) :
    Multiset.card (liveObjects live c) = live.countP fun b => b.sc = c := by
  induction live with
  | nil => rfl
  | cons b live ih =>
      rw [liveObjects_cons, Pi.add_apply, Multiset.card_add, ih, List.countP_cons, add_comm]
      congr 1
      by_cases hc : b.sc = c
      · subst hc
        simp [inClass]
      · simp [inClass, hc, Ne.symm hc]

/-- The objects a class may have when `peak` blocks of it have been live together. -/
def bound (slabCount c peak : Nat) : Nat :=
  peak + (slabCount - 1) * slabCapacity c + ((sizeClass c).batchSize - 1) +
    spanObjects (sizeClass c)

omit [Fintype ι] in
/-- What a central list did. -/
theorem perform_centralAllocate {q : Nat} (h : w.perform e (.centralAllocate c) = some (q, w')) :
    ∃ b', w.allocator.backend.allocate e.kernel c = some (q, b') ∧
      w' = { w with allocator := { w.allocator with backend := b' } } := by
  obtain ⟨⟨q, a⟩, hmap, heq⟩ := Option.map_eq_some_iff.mp h
  obtain ⟨⟨q', b'⟩, hres, heq'⟩ := Option.map_eq_some_iff.mp hmap
  obtain ⟨rfl, rfl⟩ := Prod.mk.inj heq
  obtain ⟨rfl, rfl⟩ := Prod.mk.inj heq'
  exact ⟨b', hres, rfl⟩

omit [Fintype ι] in
theorem perform_slabCount {r : Answer a} (h : w.perform e a = some (r, w')) :
    w'.allocator.slabCount = w.allocator.slabCount := by
  obtain ⟨⟨q, x⟩, hres, heq⟩ := Option.map_eq_some_iff.mp h
  obtain ⟨rfl, rfl⟩ := Prod.mk.inj heq
  cases a with
  | slabPop sc | slabPush sc ptr | removeRange sc n | insertRange sc batch | spanFor ptr =>
      obtain ⟨rfl, rfl⟩ := Prod.mk.inj (Option.some.inj hres)
      rfl
  | spanSize s | centralAllocate sc | centralDeallocate sc s ptr =>
      obtain ⟨y, -, hy⟩ := Option.map_eq_some_iff.mp hres
      obtain ⟨-, rfl⟩ := Prod.mk.inj hy
      rfl

namespace Inv

/-- Only a request to the central list of `c` adds a span to it. -/
theorem atMost_of_ne (hi : w.Inv γ) (hg : γ t = some g) (ha : Pre g a)
    (hne : a ≠ .centralAllocate c)
    (hc : c < numSizeClasses) {r : Answer a} (h : w.perform e a = some (r, w'))
    (hat : w.AtMost c n) : w'.AtMost c n := by
  -- of another class, all is the same
  by_cases hac : ∃ d, a.InClass d ∧ c ≠ d
  · obtain ⟨d, had, hcd⟩ := hac
    exact (hi.isolated hg ha had hc hcd h).atMost hat
  cases a with
  | slabPop sc | slabPush sc ptr | removeRange sc n | insertRange sc batch | spanFor ptr =>
      obtain ⟨rfl, rfl⟩ := Prod.mk.inj (Option.some.inj h)
      exact hat
  | spanSize s =>
      simp only [World.perform, Allocator.perform, Option.map_map, Option.map_eq_some_iff] at h
      obtain ⟨x, -, hx⟩ := h
      obtain ⟨-, rfl⟩ := Prod.mk.inj hx
      exact hat
  | centralAllocate sc =>
      refine absurd ?_ hac
      exact ⟨sc, rfl, fun e => hne (by rw [e])⟩
  | centralDeallocate sc s ptr =>
      obtain rfl : c = sc := by
        by_contra hne
        exact hac ⟨sc, rfl, hne⟩
      obtain ⟨L, S, hb⟩ := hi.backend
      obtain ⟨x, b', L', S', -, -, hres, hb', -, -, hS, -⟩ :=
        Backend.deallocateLocked_spec hb (mem_handed (w := w) hg ha.1)
          ((hi.routed t g hg) ptr s ha.2).2
      simp only [World.perform, Allocator.perform, hres, Option.map_some, Option.some.injEq] at h
      obtain ⟨rfl, rfl⟩ := Prod.mk.inj h
      rw [atMost_iff hb']
      refine le_trans (Nat.mul_le_mul_right _ ?_) ((atMost_iff hb).mp hat)
      rw [hS]
      split
      · rw [Function.update_self]
        exact List.length_erase_le
      · exact le_rfl

/-! ### The moment of growth -/

/-- **Growth.**  A central list gets a span only when all objects of its spans are handed out. -/
theorem atMost_fetch (hi : w.Inv γ) (h₁ : 1 ≤ c) (hc : c < numSizeClasses) {q : Nat}
    (h : w.perform e (.centralAllocate c) = some (q, w')) (hat : w.AtMost c n)
    (hfull : Multiset.card (w.handed γ c) + spanObjects (sizeClass c) ≤ n) : w'.AtMost c n := by
  obtain ⟨hsize, -, hpages, -⟩ := sizeClass_ok h₁ hc
  obtain ⟨b', hres, rfl⟩ := perform_centralAllocate h
  obtain ⟨L, S, hb⟩ := hi.backend
  obtain ⟨p, b, L', S', hres', hb', -, hal⟩ :=
    Backend.allocate_cases hb (sizeClass_classOk c) e.kernel
  obtain ⟨rfl, rfl⟩ := Prod.mk.inj (Option.some.inj (hres.symm.trans hres'))
  rw [atMost_iff hb']
  rcases Nat.eq_zero_or_pos (w.allocator.backend.stock (S c)) with h0 | hpos
  · obtain ⟨s, h', -, -, rfl, -⟩ := hal.of_empty hb h0 (by omega) (by omega)
    have hout := hb.stock_add_out c
    rw [h0, Nat.zero_add, hb.total_eq] at hout
    have hone : s.toList.length * spanObjects (sizeClass c) ≤ 1 * spanObjects (sizeClass c) :=
      Nat.mul_le_mul_right _ (by cases s <;> simp)
    rw [Function.update_self, List.length_append, Nat.add_mul, ← hout]
    omega
  · obtain ⟨rfl, -⟩ := hal.of_stock hb hpos
    exact (atMost_iff hb).mp hat

/-- What is handed out while one call runs. -/
theorem card_handed [DecidableEq ι] (hγ : ∀ t, γ t = none) (t : ι) (g : Held) (w : World) :
    Multiset.card (w.handed (Function.update γ t (some g)) c) = w.liveCount c +
      Multiset.card (g.objs c) + Multiset.card (slabObjects w.allocator c) +
      (w.allocator.transferCaches c).slots.length := by
  have hnone : heldObjects γ = 0 := Finset.sum_eq_zero fun x _ => by rw [hγ x]; rfl
  have hheld := heldObjects_update γ t (some g)
  rw [hγ t, hnone, zero_add] at hheld
  replace hheld : heldObjects (Function.update γ t (some g)) = g.objs := by
    simpa [callObjects] using hheld
  rw [handed, hheld]
  simp only [Pi.add_apply, Multiset.card_add, card_liveObjects]
  rfl

variable [DecidableEq ι] {cpu P : Nat} {k : Kernel}

/-- A program that asks nothing of the central list of `c`. -/
theorem exec_atMost (hi : w.Inv (Function.update γ t (some g))) (hc : c < numSizeClasses)
    (hat : w.AtMost c n) {β : Type} {p : Program β} {Q : Held → β → Prop} (hwp : p.wp rules Q g)
    (hall : p.All (· ≠ .centralAllocate c)) (env : Nat → Env) :
    ∃ v w' g', p.exec World.perform env w = some (v, w') ∧
      w'.Inv (Function.update γ t (some g')) ∧ w'.AtMost c n ∧ Q g' v := by
  obtain ⟨v, w', g', hexec, ⟨hi', hat'⟩, hQ⟩ := Prog.exec_spec
    (J := fun (w : World) g => w.Inv (Function.update γ t (some g)) ∧ w.AtMost c n)
    (fun {w g a} e h ha => by
      have hgt : Function.update γ t (some g) t = some g := Function.update_self ..
      obtain ⟨r, w', hr, hans, hi'⟩ := h.1.perform hgt ha.1 e
      exact ⟨r, w', hr, hans, by simpa using hi', h.1.atMost_of_ne hgt ha.1 ha.2 hc hr h.2⟩)
    (Prog.wp_all hwp hall) ⟨hi, hat⟩ env
  exact ⟨v, w', g', hexec, hi', hat', hQ⟩

/-- A batch from the central list, with nothing on the stack of the CPU and in the transfer cache:
when the list grows, what is handed out is live, on the other stacks, or in the batch. -/
theorem allocateBatch_atMost (hγ : ∀ t, γ t = none) (h₁ : 1 ≤ c) (hc : c < numSizeClasses)
    (hi : w.Inv (Function.update γ t (some g))) (hcpu : cpu < w.allocator.slabCount)
    (hstack : w.height cpu c = 0) (hcache : (w.allocator.transferCaches c).slots = [])
    (hlive : w.liveCount c ≤ P) {count : Nat}
    (hcard : Multiset.card (g.objs c) + count ≤ (sizeClass c).batchSize)
    (hat : w.AtMost c (bound w.allocator.slabCount c P)) {Q : Held → List Nat → Prop}
    (hwp : (Program.allocateBatch c count).wp rules Q g) :
    ∃ ps w' g', (Program.allocateBatch c count).exec World.perform (fun _ => ⟨cpu, k⟩) w =
        some (ps, w') ∧ w'.Inv (Function.update γ t (some g')) ∧
      w'.AtMost c (bound w.allocator.slabCount c P) ∧ Q g' ps := by
  induction count generalizing w g Q with
  | zero => exact ⟨[], w, g, rfl, hi, hat, hwp⟩
  | succ count ih =>
      have hgt : Function.update γ t (some g) t = some g := Function.update_self ..
      obtain ⟨hpre, hk⟩ := hwp
      obtain ⟨q, w₁, hres, hi₁⟩ := hi.centralAllocate hgt c ⟨cpu, k⟩
      have hat₁ := hi.atMost_fetch h₁ hc hres hat (by
        have hslabs : Multiset.card (slabObjects w.allocator c) ≤ _ :=
          Slabs.card_objects_le hi.bounded hcpu hc hstack
        rw [card_handed hγ, hcache, bound, List.length_nil]
        omega)
      have hheight := (hi.offSlabs (a := .centralAllocate c) hgt hpre trivial hres).2 cpu hcpu c hc
      rw [Function.update_idem] at hi₁
      obtain ⟨b', -, rfl⟩ := perform_centralAllocate hres
      have hexec : ∀ f : Nat → Program (List Nat),
          (Program.centralAllocate c >>= f).exec World.perform (fun _ => ⟨cpu, k⟩) w =
            (f q).exec World.perform (fun _ => ⟨cpu, k⟩) _ := fun f => by
        rw [Program.centralAllocate, Prog.exec_perform_bind, hres]
        rfl
      by_cases hq : q = (0 : Nat)
      · subst hq
        exact ⟨[], _, _, hexec _, hi₁, hat₁, hk 0 trivial⟩
      · have htrack : g.track (.centralAllocate c) q = g.gain c {q} := if_neg hq
        have hrest : (if q = 0 then pure [] else Program.allocateBatch c count >>= fun ps =>
            pure (q :: ps) : Program (List Nat)).wp rules Q (g.track (.centralAllocate c) q) :=
          hk q trivial
        rw [if_neg hq, Prog.wp_bind, htrack] at hrest
        rw [htrack] at hi₁
        have hcard₁ : Multiset.card ((g.gain c {q}).objs c) + count ≤ (sizeClass c).batchSize := by
          simp only [Held.gain, Pi.add_apply, inClass, Pi.single_eq_same, Multiset.card_add,
            Multiset.card_singleton]
          omega
        obtain ⟨ps, w', g', hps, hi', hat', hQ⟩ :=
          ih hi₁ hcpu (hheight.trans hstack) hcache hlive hcard₁ hat₁ hrest
        refine ⟨q :: ps, w', g', ?_, hi', hat', hQ⟩
        rw [Program.allocateBatch, hexec, if_neg hq, Prog.exec_bind, hps]
        rfl

/-- `allocate`, for the class of the request. -/
theorem allocate_atMost (hγ : ∀ t, γ t = none) (hi : w.Inv (Function.update γ t (some {})))
    (hcpu : cpu < w.allocator.slabCount) {n : Nat} (hn : n ≤ maxSize)
    (hlive : w.liveCount (roundSizeClass n).2 ≤ P)
    (hat : w.AtMost (roundSizeClass n).2 (bound w.allocator.slabCount (roundSizeClass n).2 P)) :
    ∃ v w', (Program.allocate n).exec World.perform (fun _ => ⟨cpu, k⟩) w = some (v, w') ∧
      w'.AtMost (roundSizeClass n).2 (bound w.allocator.slabCount (roundSizeClass n).2 P) := by
  obtain ⟨-, h₁, hc, -, -⟩ := roundSizeClass_spec hn
  obtain ⟨-, -, -, -, hbatch, -⟩ := sizeClass_ok h₁ hc
  have hwp := Program.allocate_wp n
  rw [Program.allocate_eq hn] at hwp
  rw [Program.allocate_eq hn]
  generalize (roundSizeClass n).2 = c at *
  have hgt : Function.update γ t (some ({} : Held)) t = some {} := Function.update_self ..
  have hbegin : ∀ {q w₁} (f : Nat → Program Nat), w.perform ⟨cpu, k⟩ (.slabPop c) = some (q, w₁) →
      (Program.slabPop c >>= f).exec World.perform (fun _ => ⟨cpu, k⟩) w =
        (f q).exec World.perform (fun _ => ⟨cpu, k⟩) w₁ := fun f h => by
    rw [Program.slabPop, Prog.exec_perform_bind, h]
    rfl
  rcases hi.pop_cases hc hcpu k with ⟨h0, hpop⟩ | ⟨q, m', hq, hpop, -⟩
  · have hrest : (Program.refillBatch c (sizeClass c).batchSize >>= Program.serve c).wp rules
        (Done (.allocate n)) {} := hwp.2 (0 : Nat) trivial
    obtain ⟨batch, w₁, hres, hans, hi₁⟩ := hi.removeRange hgt c (sizeClass c).batchSize ⟨cpu, k⟩
    have hat₁ := hi.atMost_of_ne (a := .removeRange c _) hgt trivial (by simp) hc hres hat
    rw [Function.update_idem] at hi₁
    have hexec : (Program.slabPop c >>= fun p => if p ≠ 0 then pure p else
        Program.refillBatch c (sizeClass c).batchSize >>= Program.serve c).exec World.perform
          (fun _ => ⟨cpu, k⟩) w = ((if batch.length = 0 then
            Program.allocateBatch c (sizeClass c).batchSize else pure batch) >>=
              Program.serve c).exec World.perform (fun _ => ⟨cpu, k⟩) w₁ := by
      rw [hbegin _ hpop, if_neg (not_not.mpr rfl), Program.refillBatch, Program.removeRange,
        bind_assoc, Prog.exec_perform_bind, hres]
      rfl
    have hserve : ((if batch.length = 0 then Program.allocateBatch c (sizeClass c).batchSize
        else pure batch) >>= Program.serve c).wp rules (Done (.allocate n))
          (({} : Held).gain c (batch : Multiset Nat)) := hrest.2 batch hans
    rw [hexec]
    by_cases hnil : batch.length = 0
    · -- the transfer cache is empty too
      obtain rfl := List.length_eq_zero_iff.mp hnil
      obtain ⟨hslots, hw₁⟩ := Prod.mk.inj (Option.some.inj hres)
      obtain ⟨hcache, hsame⟩ := TransferCache.removeRange_eq_nil hbatch hslots
      have hw : w₁ = w := by
        rw [← hw₁]
        dsimp only
        rw [hsame, Allocator.setCache, Function.update_eq_self]
      rw [hw] at hi₁ ⊢
      have hnone :
          (({} : Held).track (.removeRange c (sizeClass c).batchSize) ([] : List Nat)).objs c =
            0 := by
        show (inClass c (([] : List Nat) : Multiset Nat) + 0) c = 0
        rw [inClass_nil]
        rfl
      rw [if_pos hnil, Prog.wp_bind] at hserve
      rw [if_pos hnil, Prog.exec_bind]
      obtain ⟨ps, w₂, g₂, hps, hi₂, hat₂, hserve⟩ := allocateBatch_atMost (k := k) hγ h₁ hc hi₁ hcpu
        h0 hcache hlive (hnone ▸ (Nat.zero_add _).le) hat hserve
      obtain ⟨v, w₃, -, hv, -, hat₃, -⟩ := hi₂.exec_atMost hc hat₂ hserve
        ((Program.serve_back c ps).mono fun _ h => h.2.ne c) fun _ => ⟨cpu, k⟩
      refine ⟨v, w₃, ?_, hat₃⟩
      rw [hps]
      exact hv
    · rw [if_neg hnil, Prog.pure_eq, Prog.done_bind] at hserve ⊢
      obtain ⟨v, w₂, -, hv, -, hat₂, -⟩ := hi₁.exec_atMost hc hat₁ hserve
        ((Program.serve_back c batch).mono fun _ h => h.2.ne c) fun _ => ⟨cpu, k⟩
      exact ⟨v, w₂, hv, hat₂⟩
  · refine ⟨q, { w with allocator := w.allocator.setMem m' }, ?_, ?_⟩
    · rw [hbegin _ hpop, if_pos hq]
      rfl
    · exact hi.atMost_of_ne (a := .slabPop c) hgt hc (by simp) hc hpop hat

end Inv

end World

/-! ### Calls one after the other -/

/-- A call, the CPU it runs on and the answers of the kernel; or a client writes. -/
inductive Turn where
  | call (x : Call) (cpu : Nat) (k : Kernel)
  | client (y : ClientWrite)

/-- The allocator called from one place at a time, and the largest number of blocks of each class
that have been live together. -/
structure Calls where
  world : World
  peak : Nat → Nat

namespace Calls

def init (mem : Memory) (foreign : Nat → Bool) (slabPage slabCount : Nat) : Calls :=
  ⟨World.init mem foreign slabPage slabCount, fun _ => 0⟩

/-- The world after a turn. -/
def next (w : World) : Turn → Option World
  | .call x cpu k => (machine.alone (fun _ => ⟨cpu, k⟩) w x).map Prod.snd
  | .client y => w.client y

/-- A call runs on a CPU that has a slab; it may be made if the client owns what it gives back. -/
def system : System Calls Turn where
  allowed u
    | .call x cpu _ => cpu < u.world.allocator.slabCount ∧ (u.world.begin x).isSome = true
    | .client y => (u.world.client y).isSome = true
  step u a := (next u.world a).map fun w => ⟨w, fun c => max (u.peak c) (w.liveCount c)⟩

instance (u : Calls) : ∀ a, Decidable (system.allowed u a)
  | .call x cpu _ => inferInstanceAs
      (Decidable (cpu < u.world.allocator.slabCount ∧ (u.world.begin x).isSome = true))
  | .client y => inferInstanceAs (Decidable ((u.world.client y).isSome = true))

/-- What holds between the calls. -/
structure Inv (slabCount : Nat) (u : Calls) : Prop where
  world : u.world.Inv fun _ : Unit => none
  count : u.world.allocator.slabCount = slabCount
  live : ∀ c, u.world.liveCount c ≤ u.peak c
  atMost : ∀ c < numSizeClasses, u.world.AtMost c (World.bound slabCount c (u.peak c))

theorem inv_init (mem : Memory) (foreign : Nat → Bool) (slabPage slabCount : Nat) :
    Inv slabCount (init mem foreign slabPage slabCount) where
  world := World.Inv.init mem foreign slabPage slabCount
  count := rfl
  live _ := Nat.zero_le _
  atMost _ _ := ⟨[], .nil _, Nat.zero_le _⟩

/-- One call leaves the class `c` within its bound. -/
theorem Inv.call_atMost {slabCount : Nat} {u : Calls} (hi : Inv slabCount u) {x : Call}
    {cpu : Nat} {k : Kernel} (hcpu : cpu < slabCount) {v : Result x} {w : World}
    (h : machine.alone (fun _ => ⟨cpu, k⟩) u.world x = some (v, w)) {c : Nat}
    (hc : c < numSizeClasses) : w.AtMost c (World.bound slabCount c (u.peak c)) := by
  have hat := hi.atMost c hc
  obtain ⟨⟨g, w₁⟩, hbegin, h⟩ := Option.bind_eq_some_iff.mp h
  obtain ⟨⟨v', w₂⟩, hexec, h⟩ := Option.map_eq_some_iff.mp h
  obtain ⟨rfl, rfl⟩ := Prod.mk.inj h
  obtain ⟨hi₁, hwp⟩ := hi.world.begin (t := ()) rfl hbegin
  refine World.AtMost.congr ?_ (World.finish_allocator x v')
  have hat₁ := hat.congr (World.begin_allocator hbegin)
  -- a call that asks nothing of the central list of `c`
  have hall : x.program.All (· ≠ .centralAllocate c) →
      w₂.AtMost c (World.bound slabCount c (u.peak c)) := by
    intro hall
    obtain ⟨v'', w', -, hexec', -, hat', -⟩ := hi₁.exec_atMost hc hat₁ hwp hall fun _ => ⟨cpu, k⟩
    obtain ⟨-, rfl⟩ := Prod.mk.inj (Option.some.inj (hexec.symm.trans hexec'))
    exact hat'
  cases x with
  | deallocate p => exact hall ((Program.deallocate_noFetch p).mono fun _ h => h.ne c)
  | allocate n =>
      by_cases hcn : c = (roundSizeClass n).2
      · subst hcn
        rcases Nat.lt_or_ge maxSize n with hn | hn
        · refine hall ?_
          rw [Call.program, Program.allocate, roundSizeClass_of_gt hn]
          trivial
        · obtain ⟨rfl, rfl⟩ := Prod.mk.inj (Option.some.inj hbegin)
          rw [← hi.count] at hcpu hat₁ ⊢
          obtain ⟨v'', w', hexec', hat'⟩ :=
            World.Inv.allocate_atMost (k := k) (fun _ => rfl) hi₁ hcpu hn (hi.live _) hat₁
          obtain ⟨-, rfl⟩ := Prod.mk.inj (Option.some.inj (hexec.symm.trans hexec'))
          exact hat'
      · refine hall ((Program.allocate_all n).mono fun a h e => hcn ?_)
        subst e
        exact h

theorem alone_slabCount {x : Call} {env : Nat → Env} {w w' : World} {v : Result x}
    (h : machine.alone env w x = some (v, w')) :
    w'.allocator.slabCount = w.allocator.slabCount := by
  obtain ⟨⟨g, w₁⟩, hbegin, h⟩ := Option.bind_eq_some_iff.mp h
  obtain ⟨⟨v', w₂⟩, hexec, h⟩ := Option.map_eq_some_iff.mp h
  obtain ⟨rfl, rfl⟩ := Prod.mk.inj h
  refine (congrArg Allocator.slabCount (World.finish_allocator x v')).trans ?_
  have hkeep : ∀ {e : Env} {y : World} {a : Action} {r : Answer a} {y' : World},
      y.allocator.slabCount = w.allocator.slabCount → y.perform e a = some (r, y') →
      y'.allocator.slabCount = w.allocator.slabCount := fun h hr =>
    (World.perform_slabCount hr).trans h
  exact Prog.exec_keeps (J := fun y => y.allocator.slabCount = w.allocator.slabCount) hkeep hexec
    (congrArg Allocator.slabCount (World.begin_allocator hbegin))

/-- **One turn.** -/
theorem Inv.step {slabCount : Nat} {u u' : Calls} {a : Turn} (hi : Inv slabCount u)
    (ha : system.allowed u a) (h : system.step u a = some u') : Inv slabCount u' := by
  obtain ⟨w, hnext, rfl⟩ := Option.map_eq_some_iff.mp h
  -- it is enough to look at the world
  suffices hw : w.Inv (fun _ : Unit => none) ∧ w.allocator.slabCount = slabCount ∧
      ∀ c < numSizeClasses, w.AtMost c (World.bound slabCount c (u.peak c)) by
    refine ⟨hw.1, hw.2.1, fun c => le_max_right _ _, fun c hc => (hw.2.2 c hc).mono ?_⟩
    simp only [World.bound]
    have := le_max_left (u.peak c) (w.liveCount c)
    omega
  cases a with
  | call x cpu k =>
      obtain ⟨hcpu, hbegin⟩ := ha
      obtain ⟨⟨v, w'⟩, halone, rfl⟩ := Option.map_eq_some_iff.mp hnext
      obtain ⟨⟨g, w₁⟩, hbegin⟩ := Option.isSome_iff_exists.mp hbegin
      obtain ⟨v', w'', halone', hi'⟩ :=
        machine_sound.alone hi.world (t := ()) rfl hbegin fun _ => ⟨cpu, k⟩
      obtain ⟨-, rfl⟩ := Prod.mk.inj (Option.some.inj (halone.symm.trans halone'))
      exact ⟨hi', (alone_slabCount halone).trans hi.count, fun c hc =>
        hi.call_atMost (hi.count ▸ hcpu) halone hc⟩
  | client y =>
      have hw := hi.world.client hnext
      replace hnext : u.world.client y = some w := hnext
      rw [World.client] at hnext
      split at hnext
      · obtain rfl := Option.some.inj hnext
        exact ⟨hw, hi.count, hi.atMost⟩
      · cases hnext

end Calls

end TieredAllocator
