import TieredAllocator.Old.Requests

/-!
# Old design — what the operations leave alone

No operation stores into the memory of a block in use (`Spares`): the headers and the footers lie
around it, and merging and splitting write into free blocks only.  One lemma for each function, in
the order of `Operations` and `Requests`.
-/

namespace TieredAllocator.Old
open Lib

variable {a a' : Allocator} {g g' : Ghost} {m m' m'' : Memory} {loose : Option Nat}
  {b c n p w x : Nat} {fuel : Nat} {r : Bool} {k : Kernel}

/-- The memory of the blocks in use is the same. -/
def Spares (g : Ghost) (m m' : Memory) : Prop :=
  ∀ x, g.Used x → ∀ y, x + headerSize ≤ y → y < x + headerSize + g.size x → m'.byte y = m.byte y

namespace Spares

theorem refl (g : Ghost) (m : Memory) : Spares g m m := fun _ _ _ _ _ => rfl

theorem trans (h : Spares g m m') (hk : g.Keeps g') (h' : Spares g' m' m'') : Spares g m m'' := by
  intro x hx y h₁ h₂
  obtain ⟨hx', hs⟩ := hk x hx
  rw [h' x hx' y h₁ (hs ▸ h₂), h x hx y h₁ h₂]

/-- Stores that meet no block in use. -/
theorem outside {lo hi : Nat} (hm : ∀ y, ¬ (lo ≤ y ∧ y < hi) → m'.byte y = m.byte y)
    (hout : ∀ x, g.Used x → x + g.span x ≤ lo ∨ hi ≤ x) : Spares g m m' := by
  intro x hx y h₁ h₂
  have := hout x hx
  rw [Ghost.span] at this
  rw [headerSize] at h₁ h₂
  exact hm y (by omega)

/-- Stores into the header of a block of the segment. -/
theorem header (hc : Coherent a g loose) (hb : b ∈ g.blocks)
    (hm : ∀ y, ¬ (b ≤ y ∧ y < b + headerSize) → m'.byte y = m.byte y) : Spares g m m' := by
  intro x hx y h₁ h₂
  refine hm y ?_
  by_cases hxb : x = b
  · subst hxb
    omega
  have hapart : b + g.span b ≤ x ∨ x + g.span x ≤ b := by
    rcases hx with hx | ⟨hx, -⟩
    · exact hc.apart.maps b hb x hx
    · exact hc.apart.blocks b hb x hx (Ne.symm hxb)
  simp only [Ghost.span] at hapart
  rw [headerSize] at *
  omega

theorem setNext (hc : Coherent a g loose) (hb : b ∈ g.blocks) {a₁ : Allocator} (v : Nat) :
    Spares g a₁.mem (a₁.setNext b v).mem :=
  header hc hb fun y hy => Memory.store_byte_of_not_mem (by rw [headerSize] at hy; omega)

theorem setIsFree (hc : Coherent a g loose) (hb : b ∈ g.blocks) {a₁ : Allocator} (v : Bool) :
    Spares g a₁.mem (a₁.setIsFree b v).mem :=
  header hc hb fun y hy => Memory.store_byte_of_not_mem (by rw [headerSize] at hy; omega)

end Spares

/-! ### The free list -/

namespace Coherent

/-- What is not in use lies apart from what is. -/
theorem apart_used (hc : Coherent a g loose) (hb : b ∈ g.blocks) (hf : g.isFree b = true)
    (hx : g.Used x) : b + g.span b ≤ x ∨ x + g.span x ≤ b := by
  rcases hx with hx | ⟨hx, hxf⟩
  · exact hc.apart.maps b hb x hx
  · refine hc.apart.blocks b hb x hx ?_
    rintro rfl
    rw [hf] at hxf
    cases hxf

/-- The stores of both ways to take `b` off the list. -/
theorem spares_detach (hc : Coherent a g loose) {prev : Nat} (hb : b ∈ g.blocks)
    (hprev : prev = 0 ∨ prev ∈ g.blocks) :
    Spares g a.mem
      (((if prev = 0 then a else a.setNext prev (a.next b)).setIsFree b false).setNext b 0).mem ∧
      Spares g a.mem
        (((if prev = 0 then a else a.setNext prev (a.next b)).setNext b 0).setIsFree b
          false).mem := by
  have hlink : Spares g a.mem (if prev = 0 then a else a.setNext prev (a.next b)).mem := by
    split
    · exact .refl g a.mem
    · rename_i h0
      exact .setNext hc (hprev.resolve_left h0) _
  refine ⟨(hlink.trans (.refl g) (.setIsFree hc hb _)).trans (.refl g) (.setNext hc hb _), ?_⟩
  exact (hlink.trans (.refl g) (.setNext hc hb _)).trans (.refl g) (.setIsFree hc hb _)

theorem unlinkFree_spares (hc : Coherent a g loose) (hb : b ∈ g.free)
    (h : a.unlinkFree fuel b = some (r, a')) : Spares g a.mem a'.mem := by
  obtain ⟨l₁, l₂, hl⟩ := List.append_of_mem hb
  have hbm := hc.mem_blocks hb
  have hnb : b ∉ l₁ := fun h =>
    List.disjoint_of_nodup_append (hl ▸ hc.nodup) h List.mem_cons_self
  rw [unlinkFree_eq (hl ▸ hc.walk) hnb (hc.pos hbm)] at h
  split at h
  case isFalse => cases h
  obtain ⟨-, rfl⟩ := Prod.mk.inj (Option.some.inj h)
  exact (hc.spares_detach hbm ((hc.prev_cases hl).imp_right And.right)).1

end Coherent

/-! ### Coalescing -/

/-- The free block `p` grows over the free block behind it. -/
theorem Coherent.spares_grow {a₁ : Allocator} (hc : Coherent a g loose) (hp : p ∈ g.blocks)
    (hpf : g.isFree p = true) (hcm : c ∈ g.blocks) (hcf : g.isFree c = true)
    (hend : p + g.span p = c) (hx : Holds a₁.mem p (g.header false p)) :
    Spares g a₁.mem (a₁.resize p (g.size p + (40 + g.size c))).mem := by
  have hlt := hc.lt hcm
  have hspan : g.span p = 40 + g.size p := rfl
  have hspan' : g.span c = 40 + g.size c := rfl
  refine .outside (fun y hy => Allocator.resize_frame hx (by omega) hy) fun x hxu => ?_
  have h₁ := hc.apart_used hp hpf hxu
  have h₂ := hc.apart_used hcm hcf hxu
  have := g.span_pos x
  omega

theorem coalescePrev_spares (hc : Coherent a g (some b)) (hb : b ∈ g.blocks)
    (hf : g.isFree b = true) (h : a.coalescePrev b = (w, a')) : Spares g a.mem a'.mem := by
  rw [Allocator.coalescePrev] at h
  rcases hc.prevPhys_spec hb with ⟨hprev, -⟩ | ⟨p, hp, hprev, hend⟩
  · simp only [hprev, ne_eq, not_true_eq_false, false_and, if_false] at h
    obtain ⟨-, rfl⟩ := Prod.mk.inj h
    exact .refl g a.mem
  · cases hpf : g.isFree p with
    | false =>
        simp only [hprev, hc.isFree_eq hp, hpf, Bool.false_eq_true, false_and, and_false,
          if_false] at h
        obtain ⟨-, rfl⟩ := Prod.mk.inj h
        exact .refl g a.mem
    | true =>
        have hpos := hc.pos hp
        have hcond : p ≠ 0 ∧ a.isFree p = true ∧ a.mapped p = a.mapped b := by
          rw [hc.isFree_eq hp, hc.mapped_eq hp, hc.mapped_eq hb]
          exact ⟨by omega, hpf, rfl⟩
        simp only [hprev, if_pos hcond, hc.grow_size hp hb hend, ← Allocator.resize_def] at h
        obtain ⟨-, rfl⟩ := Prod.mk.inj h
        have hgrow := hc.spares_grow hp hpf hb hf hend (hc.holding.blocks p hp)
        exact hgrow

theorem coalesceNext_spares (hw : Coalescing a g loose w) (hsep : g.Separate [w])
    (h : a.coalesceNext fuel w = some a') : Spares g a.mem a'.mem := by
  induction fuel generalizing a g with
  | zero => cases h
  | succ fuel ih =>
      have hc := hw.coherent
      have hwm := hw.mem
      have hdone : some a = some a' → Spares g a.mem a'.mem := by
        intro heq
        obtain rfl := Option.some.inj heq
        exact .refl g a.mem
      rw [Allocator.coalesceNext] at h
      rcases hc.nextPhys_spec hwm with ⟨hnext, -⟩ | ⟨hnext, hcm⟩
      · simp only [hnext, true_or, if_true] at h
        exact hdone h
      · generalize hend : w + g.span w = c at *
        cases hcf : g.isFree c with
        | false =>
            simp only [hnext, hc.isFree_eq hcm, hcf, Bool.false_eq_true, not_false_eq_true, true_or,
              or_true, if_true] at h
            exact hdone h
        | true =>
            have hcpos := hc.pos hcm
            have hwc : w ≠ c := by
              have := g.span_pos w
              omega
            have hloosec : loose ≠ some c := by
              rcases hw.owner with h | h
              · simp [h]
              · simpa [h] using hwc
            have hcfree : c ∈ g.free := (hc.onList c).mpr ⟨hcm, hcf, hloosec⟩
            have hcond : ¬ (c = 0 ∨ ¬ a.isFree c = true ∨ a.mapped c ≠ a.mapped w) := by
              rw [hc.isFree_eq hcm, hc.mapped_eq hcm, hc.mapped_eq hwm, hcf]
              simp
              omega
            simp only [hnext, if_neg hcond, Option.bind_eq_bind] at h
            obtain ⟨⟨ok, a₁⟩, hunlink, h⟩ := Option.bind_eq_some_iff.mp h
            obtain ⟨-, ⟨prev, hc₁⟩, hb₁, -⟩ := hc.unlinkFree_spec hcfree hunlink
            have hsize : add64 (a₁.size w) (add64 overheadSize (a₁.size c)) =
                g.size w + (40 + g.size c) :=
              hc₁.grow_size (g := g.detach prev c) hwm hcm hend
            obtain ⟨hw₂, hsep₂, hk₂⟩ := hw.absorb_next hsep hcm hend hcfree hc₁ hb₁
            simp only [hsize] at h
            -- off the list, then into `w`, then the rest of the loop
            have h₁ : Spares g a.mem a₁.mem := hc.unlinkFree_spares hcfree hunlink
            have hx : Holds a₁.mem w ((g.detach prev c).header false w) := hc₁.holding.blocks w hwm
            have h₂ : Spares g a₁.mem (a₁.resize w (g.size w + (40 + g.size c))).mem := by
              refine .outside (fun y hy => Allocator.resize_frame hx ?_ hy) fun x hxu => ?_
              · have := hc.lt hcm
                have : g.span w = 40 + g.size w := rfl
                omega
              · have := hc.apart_used hwm hw.isFree hxu
                have := hc.apart_used hcm hcf hxu
                have := g.span_pos x
                have : g.span w = 40 + g.size w := rfl
                have : g.span c = 40 + g.size c := rfl
                omega
            have h₃ := ih hw₂ hsep₂ h
            exact (h₁.trans (.refl g) h₂).trans hk₂.keeps h₃

theorem coalesceAround_spares (hc : Coherent a g (some b)) (hb : b ∈ g.blocks)
    (hf : g.isFree b = true) (hbytes : a.availableBytes = g.freeBytes + g.size b)
    (hsep : ∀ x ∈ g.blocks, ∀ y ∈ g.blocks, x + g.span x = y → g.isFree x = true →
      g.isFree y = true → x = b ∨ y = b)
    (h : a.coalesceAround fuel b = some (w, a')) : Spares g a.mem a'.mem := by
  have hpos := hc.pos hb
  have hcond : ¬ (b = 0 ∨ a.mapped b = true) := by
    rw [hc.mapped_eq hb]
    simp
    omega
  rw [Allocator.coalesceAround, if_neg hcond] at h
  obtain ⟨a₂, hnext, h⟩ := Option.bind_eq_some_iff.mp h
  obtain ⟨hw, rfl⟩ := Prod.mk.inj (Option.some.inj h)
  have hprev : Spares g a.mem (a.coalescePrev b).2.mem :=
    coalescePrev_spares hc hb hf (h := Prod.ext hw rfl)
  obtain ⟨g₁, loose₁, hw₁, hsep₁, hk₁, -⟩ :=
    coalescePrev_spec hc hb hf hbytes hsep (h := Prod.ext hw rfl)
  rw [hw] at hnext
  exact hprev.trans hk₁.keeps (coalesceNext_spares hw₁ hsep₁ hnext)

/-- Only `b`, which is given back, may be written over. -/
theorem returnBack_spares (hi : Inv a g) (hb : b ∈ g.blocks) (hf : g.isFree b = false)
    (h : a.returnBack fuel b = some (r, a')) :
    ∀ x, g.Used x → x ≠ b → ∀ y, x + headerSize ≤ y → y < x + headerSize + g.size x →
      a'.mem.byte y = a.mem.byte y := by
  obtain ⟨hc, hsep, hbytes⟩ := hi
  have hpos := hc.pos hb
  have hcond : ¬ (b = 0 ∨ a.isFree b = true) := by
    rw [hc.isFree_eq hb, hf]
    simp
    omega
  rw [Allocator.returnBack, if_neg hcond] at h
  obtain ⟨⟨w, a₂⟩, hcoal, h⟩ := Option.bind_eq_some_iff.mp h
  have hc₁ := hc.loosen hb hf
  have hsize : ((a.setIsFree b true).setNext b 0).size b = g.size b := hc₁.size_eq hb
  have hle : g.freeBytes + g.size b + 40 * g.free.length ≤ a.brkHeapEnd :=
    hc₁.freeBytes_le fun x hx => Option.some.inj hx ▸ hb
  have hlim := hc.limit
  have hadd : add64 a.availableBytes (g.size b) = g.freeBytes + g.size b := by
    rw [hbytes, add64_eq (by omega)]
  have hcoal : Allocator.coalesceAround fuel { (a.setIsFree b true).setNext b 0 with
      availableBytes := g.freeBytes + g.size b } b = some (w, a₂) := by
    rw [← hadd, ← hsize]
    exact hcoal
  have hsep₁ : ∀ x ∈ (g.loosen b).blocks, ∀ y ∈ (g.loosen b).blocks,
      x + (g.loosen b).span x = y → (g.loosen b).isFree x = true →
      (g.loosen b).isFree y = true → x = b ∨ y = b := by
    intro x hx y hy hxy hfx hfy
    by_contra hne
    obtain ⟨hxb, hyb⟩ := not_or.mp hne
    refine List.not_mem_nil (hsep x hx y hy hxy ?_ ?_)
    · simpa [Ghost.loosen, Ghost.setIsFree, Ghost.setNext, hxb] using hfx
    · simpa [Ghost.loosen, Ghost.setIsFree, Ghost.setNext, hyb] using hfy
  have hloose : Spares g a.mem ((a.setIsFree b true).setNext b 0).mem :=
    (Spares.setIsFree hc hb _).trans (.refl g) (.setNext hc hb _)
  have hbf : (g.loosen b).isFree b = true := by
    simp [Ghost.loosen, Ghost.setIsFree, Ghost.setNext]
  have hc₂ := hc₁.setBytes (g.freeBytes + g.size b)
  have haround := coalesceAround_spares hc₂ hb hbf rfl hsep₁ hcoal
  obtain ⟨g', loose', hw, -, hk, -, hcase⟩ := coalesceAround_spec hc₂ hb hbf rfl hsep₁ hcoal
  have hend : Spares g' a₂.mem a'.mem := by
    rcases hcase with ⟨rfl, rfl⟩ | ⟨rfl, hne⟩
    · simp only [if_true] at h
      obtain ⟨-, rfl⟩ := Prod.mk.inj (Option.some.inj h)
      exact .setNext hw.coherent hw.mem _
    · simp only [if_neg hne] at h
      obtain ⟨-, rfl⟩ := Prod.mk.inj (Option.some.inj h)
      exact .refl g' _
  intro x hx hxb y h₁ h₂
  have hx' : (g.loosen b).Used x := by
    refine hx.imp_right fun hxb' => ⟨hxb'.1, ?_⟩
    simpa [Ghost.loosen, Ghost.setIsFree, Ghost.setNext, hxb] using hxb'.2
  rw [haround.trans hk.keeps hend x hx' y h₁ h₂]
  exact hloose x hx y h₁ h₂

/-! ### Taking and making blocks -/

/-- Splitting a free block. -/
theorem split_spares (hc : Coherent a g loose) (hcm : c ∈ g.blocks) (hcf : g.isFree c = true)
    (hn : n ≤ g.size c) : Spares g a.mem (a.split c n).2.mem := by
  have hlt := hc.lt hcm
  have hpos := hc.pos hcm
  have hx := hc.holding.blocks c hcm
  by_cases hfit : n + 40 < g.size c
  · have hroom : add64 (add64 n overheadSize) 1 = n + 40 + 1 := by
      rw [show overheadSize = 40 from rfl, add64_eq (a := n) (by omega), add64_eq (by omega)]
    have hcn : c + 40 + n < 2 ^ 64 := by omega
    have hend : (a.resize c n).blockEnd c = c + (40 + n) :=
      (Allocator.resize_holds hx hcn).blockEnd_eq hcn
    have hrest : sub64 (sub64 (g.size c) n) overheadSize = g.size c - n - 40 := by
      rw [show overheadSize = 40 from rfl, sub64_eq (a := g.size c) (by omega) (by omega),
        sub64_eq (by omega) (by omega)]
    rw [Allocator.split, if_neg (by rw [hc.size_eq hcm]; omega), hc.size_eq hcm, hroom,
      if_neg (by omega)]
    simp only [hend, hrest, hc.mapped_eq hcm, hc.next_eq hcm, ← Allocator.format_def,
      ← Allocator.resize_def]
    refine Spares.outside (fun y (hy : ¬ (c ≤ y ∧ y < c + g.span c)) => ?_) fun x hxu =>
      (hc.apart_used hcm hcf hxu).symm
    rw [Ghost.span] at hy
    rw [Allocator.setNext, Memory.store_byte_of_not_mem (by omega),
      Allocator.format_frame (by omega) (by omega), Allocator.resize_frame hx hcn (by omega)]
  · rw [split_small hc hcm hn hfit]
    exact .refl g a.mem

theorem take_spares {f₁ f₂ : List Nat} (hi : Inv a g) (hl : g.free = f₁ ++ c :: f₂)
    (hn : n ≤ g.size c) : Spares g a.mem (a.take n (f₁.getLastD 0) c).2.mem := by
  have hc := hi.coherent
  have hcf : c ∈ g.free := by simp [hl]
  have hsplit := split_spares hc (hc.mem_blocks hcf) (hc.isFree_of_mem hcf) hn
  obtain ⟨g₁, f₂', hc₁, -, -, hl₁, hk₁, -, hcm₁⟩ := split_spec hi hl hn
  rw [take_eq]
  refine hsplit.trans hk₁ ?_
  exact (hc₁.spares_detach hcm₁ ((hc₁.prev_cases hl₁).imp_right And.right)).2

/-- What the system grants has an end below `2 ^ 64`. -/
theorem createBlock_grant {mode : Bool} {start : Nat} {os : Os}
    (hn : n + 40 < 2 ^ 63 ∨ (mode = true ∧ n + 40 < 2 ^ 64))
    (h : (if mode then a.os.mmap k (n + 40) else a.os.sbrk k (toIntptr (n + 40))) =
      (some start, os)) : start + 40 + n < 2 ^ 64 := by
  cases mode with
  | true =>
      obtain ⟨-, hlim, -⟩ := Os.mmap_spec h
      rw [Os.addressLimit] at hlim
      omega
  | false =>
      have hsmall : n + 40 < 2 ^ 63 := hn.resolve_right fun h => by cases h.1
      rw [if_neg Bool.false_ne_true, toIntptr_of_lt hsmall] at h
      obtain ⟨hstart, -, -, -, hlim, -⟩ := Os.sbrk_spec h
      rw [Os.addressLimit] at hlim
      omega

/-- A new block is formatted where it is. -/
theorem createBlock_frame {f mode : Bool}
    (hn : n + 40 < 2 ^ 63 ∨ (mode = true ∧ n + 40 < 2 ^ 64))
    (h : a.createBlock k n f mode 0 = (b, a')) :
    a'.mem = a.mem ∨ ∀ y, ¬ (b ≤ y ∧ y < b + 40 + n) → a'.mem.byte y = a.mem.byte y := by
  rw [Allocator.createBlock] at h
  simp only [show overheadSize = 40 from rfl, add64_eq (show n + 40 < 2 ^ 64 by omega)] at h
  cases hs : (if mode then a.os.mmap k (n + 40) else a.os.sbrk k (toIntptr (n + 40))) with
  | mk ok os =>
      cases ok with
      | none =>
          simp only [hs] at h
          obtain ⟨-, rfl⟩ := Prod.mk.inj h
          exact .inl rfl
      | some start =>
          have hlt := createBlock_grant hn hs
          obtain ⟨m, hfmt, -, hfr⟩ := Allocator.format_spec (a := { a with os := os }) (f := f)
            (g := mode) hlt (show 0 < 2 ^ 64 by decide)
          simp only [hs, ← Allocator.format_def, hfmt] at h
          refine .inr ?_
          cases mode with
          | true =>
              obtain ⟨rfl, rfl⟩ := Prod.mk.inj h
              exact hfr
          | false =>
              simp only [Bool.false_eq_true, if_false] at h
              obtain ⟨rfl, rfl⟩ := Prod.mk.inj h
              split <;> exact hfr

/-! ### The public operations -/

theorem allocate_spares (hi : Inv a g) (hn : n + 40 < 2 ^ 64)
    (h : a.allocate k fuel n = some (p, a')) : Spares g a.mem a'.mem := by
  have hc := hi.coherent
  rw [Allocator.allocate] at h
  obtain ⟨found, hfound, hrest⟩ := Option.bind_eq_some_iff.mp h
  cases found with
  | some pc =>
      obtain ⟨prev, c⟩ := pc
      obtain ⟨hfit, l₁, l₂, hl, rfl⟩ := hc.findFit_spec hfound
      have heq := Option.some.inj hrest
      rw [show a' = (a.take n (l₁.getLastD 0) c).2 by rw [heq]]
      exact take_spares hi hl hfit
  | none =>
      cases hcreate : a.createBlock k n false (decide (mmapThreshold ≤ n)) 0 with
      | mk b a₁ =>
          have hmem : a₁ = a' := by
            simp only [hcreate] at hrest
            split at hrest <;> exact (Prod.mk.inj (Option.some.inj hrest)).2
          subst hmem
          have hgrant : n + 40 < 2 ^ 63 ∨
              (decide (mmapThreshold ≤ n) = true ∧ n + 40 < 2 ^ 64) := by
            rw [decide_eq_true_eq, mmapThreshold]
            omega
          have hframe := createBlock_frame hgrant hcreate
          have hnew : a₁ = a ∨ ∃ g', Inv a₁ g' ∧ g.Keeps g' ∧ g'.Used b ∧ ¬ g.Used b ∧
              g'.size b = n := by
            by_cases hbig : mmapThreshold ≤ n
            · rw [decide_eq_true hbig] at hcreate
              rcases createBlock_mmap hc hn hcreate with ⟨-, hsame⟩ | ⟨-, -, -, -, hc₁, hb⟩
              · exact .inl hsame
              · obtain ⟨hi₁, hk, hu, hnu⟩ := hi.mapBlock hc₁ hb
                exact .inr ⟨_, hi₁, hk, hu, hnu, by simp [Ghost.mapBlock]⟩
            · rw [decide_eq_false hbig] at hcreate
              have hsmall : n + 40 < 2 ^ 63 := hgrant.resolve_right fun h =>
                hbig (of_decide_eq_true h.1)
              rcases createBlock_brk hc hsmall hcreate with ⟨-, hsame⟩ | ⟨-, hb, hc₁, hbytes, -⟩
              · exact .inl hsame
              · obtain ⟨hi₁, hk, hu, hnu⟩ := hi.extend hb hc₁ hbytes
                exact .inr ⟨_, hi₁, hk, hu, hnu, by simp [Ghost.extend]⟩
          rcases hnew with rfl | ⟨g', hi', hk, hu, hnu, hsize⟩
          · exact .refl g a₁.mem
          rcases hframe with hsame | hframe
          · rw [hsame]
            exact .refl g a.mem
          -- the new block is in use, and blocks in use do not overlap
          refine .outside hframe fun x hx => ?_
          obtain ⟨hx', hs⟩ := hk x hx
          have hxb : x ≠ b := fun h => hnu (h ▸ hx)
          have := hi'.coherent.used_apart hx' hu hxb
          rw [Ghost.span, Ghost.span, hs, hsize] at this
          rw [Ghost.span]
          omega

/-- What is left in use keeps its memory. -/
theorem release_spares (hi : Inv a g) (hb : g.Used b) (h : a.release k fuel b = some (r, a')) :
    ∀ x, g.Used x → x ≠ b ∨ r = false → ∀ y, x + headerSize ≤ y →
      y < x + headerSize + g.size x → a'.mem.byte y = a.mem.byte y := by
  have hc := hi.coherent
  rw [Allocator.release] at h
  rcases hb with hb | ⟨hb, hf⟩
  · have hm : a.mapped b = true := (hc.holding.maps b hb).mapped_eq
    rw [if_pos hm] at h
    obtain ⟨-, rfl⟩ := Prod.mk.inj (Option.some.inj h)
    exact fun _ _ _ _ _ _ => rfl
  · rw [if_neg (by simp [hc.mapped_eq hb])] at h
    split at h
    · obtain ⟨⟨ok, a₁⟩, hret, hrest⟩ := Option.bind_eq_some_iff.mp h
      obtain ⟨rfl, rfl⟩ := Prod.mk.inj (Option.some.inj hrest)
      exact fun x hx hne => returnBack_spares hi hb hf hret x hx (hne.resolve_right (by simp))
    · dsimp only at h
      split at h
      · obtain ⟨-, rfl⟩ := Prod.mk.inj (Option.some.inj h)
        exact fun _ _ _ _ _ _ => rfl
      · obtain ⟨-, rfl⟩ := Prod.mk.inj (Option.some.inj h)
        exact fun _ _ _ _ _ _ => rfl

/-- The free block `b` off the list, and its bytes no longer counted. -/
theorem Inv.unlinked {a₁ : Allocator} (hi : Inv a g) (hb : b ∈ g.free)
    (h : a.unlinkFree fuel b = some (r, a₁)) :
    r = true ∧ ∃ prev, Inv { a₁ with availableBytes := sub64 a₁.availableBytes (a₁.size b) }
      (g.detach prev b) := by
  have hc := hi.coherent
  obtain ⟨rfl, ⟨prev, hc₁⟩, hbytes, -⟩ := hc.unlinkFree_spec hb h
  have hsum := Ghost.freeBytes_detach hb prev
  have hle := hc.freeBytes_le fun x hx => by cases hx
  have hlim := hc.limit
  have hsize : a₁.size b = g.size b := hc₁.size_eq (hc.mem_blocks hb)
  refine ⟨rfl, prev, hc₁.setBytes _, hi.separate.detach prev b, ?_⟩
  show sub64 a₁.availableBytes (a₁.size b) = _
  rw [hbytes, hi.bytes, hsize, hsum, sub64_eq (by omega) (by omega)]
  omega

theorem deallocateBlock_spares (hi : Inv a g) (hb : g.Used b ∨ b ∈ g.free)
    (h : a.deallocateBlock k fuel b = some (r, a')) :
    ∀ x, g.Used x → x ≠ b ∨ r = false → ∀ y, x + headerSize ≤ y →
      y < x + headerSize + g.size x → a'.mem.byte y = a.mem.byte y := by
  rcases hb with hb | hb
  · rw [deallocateBlock_used hi hb] at h
    exact release_spares hi hb h
  · obtain ⟨ok, a₁, hunlink⟩ := unlinkFree_of_deallocateBlock hi hb h
    have hbm := hi.coherent.mem_blocks hb
    have hpos := hi.coherent.pos hbm
    have hf := hi.coherent.isFree_of_mem hb
    have hunlinked := hi.coherent.unlinkFree_spares hb hunlink
    obtain ⟨rfl, prev, hi₁⟩ := hi.unlinked hb hunlink
    rw [Allocator.deallocateBlock, if_neg (by omega),
      if_pos (by rw [hi.coherent.isFree_eq hbm, hf])] at h
    simp only [hunlink, Option.bind_eq_bind, Option.bind_some, if_true] at h
    have hu : (g.detach prev b).Used b := .inr ⟨hbm, by simp [Ghost.detach]⟩
    intro x hx _ y h₁ h₂
    have hxb : x ≠ b := fun h => hi.coherent.not_used hb (h ▸ hx)
    obtain ⟨hx₁, hs₁⟩ := hi.coherent.used_detach hb prev x hx
    rw [release_spares hi₁ hu h x hx₁ (.inl hxb) y h₁ (hs₁ ▸ h₂)]
    exact hunlinked x hx y h₁ h₂

end TieredAllocator.Old
