import Mathlib.Tactic

/-!
# Library — byte memory

A flat memory of bytes, little-endian words of `k` bytes, and a ghost log of the stores made.
`Wrote P m m'` says that `m'` comes from `m` by stores that all satisfy `P`, and that nothing
else changed; it composes, so the footprint of a program is the composition of the footprints
of its stores.
-/

namespace TieredAllocator.Lib

/-- A byte memory.  `log` is a ghost: the `(address, length)` of every store made, most recent
first; no operation reads it. -/
structure Memory where
  byte : Nat → UInt8
  log : List (Nat × Nat)

namespace Memory

/-- All bytes zero, and no store made. -/
def zero : Memory := ⟨fun _ => 0, []⟩

/-- The little-endian word of `k` bytes at `a`. -/
def load (m : Memory) (a : Nat) : Nat → Nat
  | 0 => 0
  | k + 1 => (m.byte a).toNat + 256 * m.load (a + 1) k

/-- `m` with the low `k` bytes of `v` at `a`. -/
def store (m : Memory) (a k v : Nat) : Memory where
  byte x := if a ≤ x ∧ x < a + k then UInt8.ofNat (v / 256 ^ (x - a)) else m.byte x
  log := (a, k) :: m.log

variable {m m' m'' : Memory} {a b k l v x : Nat}

theorem load_lt (m : Memory) : ∀ (k a : Nat), m.load a k < 256 ^ k
  | 0, a => by simp [load]
  | k + 1, a => by
      have h := load_lt m k (a + 1)
      have hb := (m.byte a).toNat_lt
      simp only [load, pow_succ]
      omega

/-- A load reads the bytes of its word only. -/
theorem load_congr : ∀ (k a : Nat), (∀ x, a ≤ x → x < a + k → m'.byte x = m.byte x) →
    m'.load a k = m.load a k
  | 0, _, _ => rfl
  | k + 1, a, h => by
      simp only [load]
      rw [h a (le_refl a) (by omega),
        load_congr k (a + 1) fun x h₁ h₂ => h x (by omega) (by omega)]

theorem store_byte_of_not_mem (h : ¬ (a ≤ x ∧ x < a + k)) : (m.store a k v).byte x = m.byte x := by
  simp only [store, if_neg h]

theorem store_byte_congr (h : m'.byte x = m.byte x) :
    (m'.store a k v).byte x = (m.store a k v).byte x := by
  simp only [store, h]

theorem load_eq_zero : ∀ (k a : Nat), (∀ x, a ≤ x → x < a + k → m.byte x = 0) → m.load a k = 0
  | 0, _, _ => rfl
  | k + 1, a, h => by
      simp only [load]
      rw [h a (le_refl a) (by omega),
        load_eq_zero k (a + 1) fun x h₁ h₂ => h x (by omega) (by omega)]
      rfl

theorem load_store_of_disjoint (h : b + l ≤ a ∨ a + k ≤ b) :
    (m.store a k v).load b l = m.load b l :=
  load_congr l b fun x _ _ => store_byte_of_not_mem (by omega)

/-- The tail of a stored word reads back as the tail of its value. -/
theorem load_store_tail (m : Memory) (a v : Nat) :
    ∀ (l j : Nat), (m.store a (j + l) v).load (a + j) l = v / 256 ^ j % 256 ^ l
  | 0, j => by simp [load, Nat.mod_one]
  | l + 1, j => by
      have ih := load_store_tail m a v l (j + 1)
      rw [show j + 1 + l = j + (l + 1) by omega, show a + (j + 1) = a + j + 1 by omega] at ih
      have hb : ((m.store a (j + (l + 1)) v).byte (a + j)).toNat = v / 256 ^ j % 256 := by
        simp [store]
      simp only [load]
      rw [hb, ih, pow_succ 256 j, ← Nat.div_div_eq_div_mul, pow_succ, mul_comm (256 ^ l) 256,
        Nat.mod_mul]

/-- A stored word reads back, truncated to its width. -/
theorem load_store_self (m : Memory) (a k v : Nat) :
    (m.store a k v).load a k = v % 256 ^ k := by
  have h := load_store_tail m a v k 0
  simpa using h

theorem load_store_self_of_lt (h : v < 256 ^ k) : (m.store a k v).load a k = v := by
  rw [load_store_self, Nat.mod_eq_of_lt h]

/-- The bytes of a word read back. -/
theorem byte_of_load : ∀ {k a : Nat}, a ≤ x → x < a + k →
    UInt8.ofNat (m.load a k / 256 ^ (x - a)) = m.byte x
  | 0, a, h₁, h₂ => by omega
  | k + 1, a, h₁, h₂ => by
      have hb := (m.byte a).toNat_lt
      rcases Nat.eq_or_lt_of_le h₁ with rfl | hlt
      · rw [Nat.sub_self, pow_zero, Nat.div_one, load]
        refine UInt8.toNat_inj.mp ?_
        simp only [UInt8.toNat_ofNat']
        omega
      · rw [show x - a = (x - (a + 1)) + 1 by omega, pow_succ', ← Nat.div_div_eq_div_mul, load,
          show ((m.byte a).toNat + 256 * m.load (a + 1) k) / 256 = m.load (a + 1) k by omega]
        exact byte_of_load hlt (by omega)

/-- Storing back what a word held restores its bytes, whatever was stored there since. -/
theorem byte_store_load (h : ¬ (a ≤ x ∧ x < a + k) → m'.byte x = m.byte x) :
    (m'.store a k (m.load a k)).byte x = m.byte x := by
  by_cases hx : a ≤ x ∧ x < a + k
  · simp only [store, if_pos hx]
    exact byte_of_load hx.1 hx.2
  · rw [store_byte_of_not_mem hx]
    exact h hx

/-! ### Footprints -/

/-- `m'` is `m` after stores that all satisfy `P`; the bytes outside them are unchanged. -/
def Wrote (P : Nat → Nat → Prop) (m m' : Memory) : Prop :=
  ∃ ws, m'.log = ws ++ m.log ∧ (∀ w ∈ ws, P w.1 w.2) ∧
    ∀ x, (∀ w ∈ ws, ¬ (w.1 ≤ x ∧ x < w.1 + w.2)) → m'.byte x = m.byte x

variable {P Q : Nat → Nat → Prop}

theorem Wrote.refl (P : Nat → Nat → Prop) (m : Memory) : Wrote P m m :=
  ⟨[], rfl, by simp, fun _ _ => rfl⟩

theorem Wrote.store (m : Memory) (v : Nat) (h : P a k) : Wrote P m (m.store a k v) :=
  ⟨[(a, k)], rfl, by simpa using h, fun x hx => store_byte_of_not_mem (hx (a, k) (by simp))⟩

theorem Wrote.trans (h₁ : Wrote P m m') (h₂ : Wrote P m' m'') : Wrote P m m'' := by
  obtain ⟨ws₁, hl₁, hP₁, hb₁⟩ := h₁
  obtain ⟨ws₂, hl₂, hP₂, hb₂⟩ := h₂
  refine ⟨ws₂ ++ ws₁, by rw [hl₂, hl₁, List.append_assoc], fun w hw => ?_, fun x hx => ?_⟩
  · rcases List.mem_append.mp hw with hw | hw
    · exact hP₂ w hw
    · exact hP₁ w hw
  · rw [hb₂ x fun w hw => hx w (List.mem_append_left _ hw),
      hb₁ x fun w hw => hx w (List.mem_append_right _ hw)]

theorem Wrote.mono (h : Wrote P m m') (hPQ : ∀ a k, P a k → Q a k) : Wrote Q m m' := by
  obtain ⟨ws, hl, hP, hb⟩ := h
  exact ⟨ws, hl, fun w hw => hPQ _ _ (hP w hw), hb⟩

/-- A byte no permitted store covers is unchanged. -/
theorem Wrote.byte_eq (h : Wrote P m m') (hx : ∀ a k, P a k → ¬ (a ≤ x ∧ x < a + k)) :
    m'.byte x = m.byte x := by
  obtain ⟨ws, -, hP, hb⟩ := h
  exact hb x fun w hw => hx _ _ (hP w hw)

/-- A word no permitted store meets is unchanged. -/
theorem Wrote.load_eq (h : Wrote P m m') (hd : ∀ b l, P b l → a + k ≤ b ∨ b + l ≤ a) :
    m'.load a k = m.load a k :=
  load_congr k a fun x h₁ h₂ => h.byte_eq fun b l hP => by
    rcases hd b l hP with h | h <;> omega

end Memory

end TieredAllocator.Lib
