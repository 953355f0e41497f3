import Mathlib
/-!
# Byte strings and little-endian integers

`leBytes w n` is the `w`-byte little-endian encoding of `n` and `leNat`
reads one back. The two are inverse on the integers that fit and on the
strings of the right length. `flatten_append_cases` reads two
concatenations of words of one width side by side.
-/

namespace Rensa

/-- A byte string. -/
abbrev Bytes := List UInt8

/-- The little-endian encoding of `n` in `w` bytes, dropping what does not
fit. -/
def leBytes : ℕ → ℕ → Bytes
  | 0, _ => []
  | w + 1, n => UInt8.ofNat n :: leBytes w (n / 256)

/-- The integer a little-endian byte string denotes. -/
def leNat : Bytes → ℕ
  | [] => 0
  | b :: bs => b.toNat + 256 * leNat bs

@[simp] theorem length_leBytes (w n : ℕ) : (leBytes w n).length = w := by
  induction w generalizing n with
  | zero => rfl
  | succ w ih => simp [leBytes, ih]

theorem leNat_lt (bs : Bytes) : leNat bs < 256 ^ bs.length := by
  induction bs with
  | nil => simp [leNat]
  | cons b bs ih =>
    have hb : b.toNat < 256 := b.toNat_lt
    simp only [leNat, List.length_cons, pow_succ]
    omega

/-- **Decoding undoes encoding**, for an integer that fits. -/
theorem leNat_leBytes {w n : ℕ} (h : n < 256 ^ w) : leNat (leBytes w n) = n := by
  induction w generalizing n with
  | zero =>
    have : n = 0 := by simpa using h
    simp [leBytes, leNat, this]
  | succ w ih =>
    have hq : n / 256 < 256 ^ w := by
      rw [pow_succ] at h
      exact Nat.div_lt_of_lt_mul (by omega)
    have hb : (UInt8.ofNat n).toNat = n % 256 := by simp
    simp only [leBytes, leNat, ih hq, hb]
    omega

/-- **Encoding undoes decoding**, for a string of the right length. -/
theorem leBytes_leNat {w : ℕ} {bs : Bytes} (h : bs.length = w) : leBytes w (leNat bs) = bs := by
  induction w generalizing bs with
  | zero => simp [leBytes, List.length_eq_zero_iff.1 h]
  | succ w ih =>
    obtain - | ⟨b, bs⟩ := bs
    · simp at h
    · have hb : b.toNat < 256 := b.toNat_lt
      have hdiv : (b.toNat + 256 * leNat bs) / 256 = leNat bs := by omega
      have hbyte : UInt8.ofNat (b.toNat + 256 * leNat bs) = b := by
        apply UInt8.toNat_inj.1
        simp
      simp only [leBytes, leNat, hdiv, hbyte]
      rw [ih (by simpa using h)]

theorem leNat_append (bs cs : Bytes) :
    leNat (bs ++ cs) = leNat bs + 256 ^ bs.length * leNat cs := by
  induction bs with
  | nil => simp [leNat]
  | cons b bs ih =>
    simp only [List.cons_append, leNat, ih, List.length_cons, pow_succ]
    ring

/-- Integers that fit are told apart by their encodings. -/
theorem leBytes_inj {w m n : ℕ} (hm : m < 256 ^ w) (hn : n < 256 ^ w)
    (h : leBytes w m = leBytes w n) : m = n := by
  rw [← leNat_leBytes hm, ← leNat_leBytes hn, h]

/-! ## Words of one width -/

section Words

variable {α : Type*} {w : ℕ}

/-- **Two strings of words, each followed by a rest.** One of the two has
the words of the other and then some more, which the other has at the
front of its rest. -/
theorem flatten_append_cases {ws vs : List (List α)} {p q : List α}
    (hws : ∀ x ∈ ws, x.length = w) (hvs : ∀ x ∈ vs, x.length = w)
    (h : ws.flatten ++ p = vs.flatten ++ q) :
    (∃ rs, vs = ws ++ rs ∧ p = rs.flatten ++ q) ∨ ∃ rs, ws = vs ++ rs ∧ q = rs.flatten ++ p := by
  induction ws generalizing vs with
  | nil => exact .inl ⟨vs, rfl, h⟩
  | cons x ws ih =>
    obtain - | ⟨y, vs⟩ := vs
    · exact .inr ⟨x :: ws, rfl, h.symm⟩
    · have hlen : x.length = y.length := by
        rw [hws x List.mem_cons_self, hvs y List.mem_cons_self]
      rw [List.flatten_cons, List.flatten_cons, List.append_assoc, List.append_assoc] at h
      obtain ⟨rfl, hrest⟩ := List.append_inj h hlen
      rcases ih (fun z hz => hws z (List.mem_cons_of_mem _ hz))
        (fun z hz => hvs z (List.mem_cons_of_mem _ hz)) hrest with ⟨rs, rfl, hp⟩ | ⟨rs, rfl, hq⟩
      · exact .inl ⟨rs, rfl, hp⟩
      · exact .inr ⟨rs, rfl, hq⟩

theorem length_flatten_of_width {ws : List (List α)} (hws : ∀ x ∈ ws, x.length = w) :
    ws.flatten.length = ws.length * w := by
  rw [List.length_flatten, List.map_congr_left hws, List.map_const', List.sum_replicate,
    smul_eq_mul]

theorem eq_nil_of_flatten {ws : List (List α)} (hw : 0 < w) (hws : ∀ x ∈ ws, x.length = w)
    (h : ws.flatten = []) : ws = [] := by
  obtain - | ⟨x, ws⟩ := ws
  · rfl
  · have hx : x.length = w := hws x List.mem_cons_self
    have hnil : x = [] := (List.append_eq_nil_iff.1 h).1
    rw [hnil, List.length_nil] at hx
    omega

/-- **Words of one width are told apart by their concatenation.** -/
theorem flatten_inj_of_width {ws vs : List (List α)} (hw : 0 < w)
    (hws : ∀ x ∈ ws, x.length = w) (hvs : ∀ x ∈ vs, x.length = w)
    (h : ws.flatten = vs.flatten) : ws = vs := by
  have happ : ws.flatten ++ [] = vs.flatten ++ [] := by rw [h]
  rcases flatten_append_cases hws hvs happ with ⟨rs, rfl, hrs⟩ | ⟨rs, rfl, hrs⟩
  · have hnil : rs = [] := eq_nil_of_flatten hw
      (fun x hx => hvs x (List.mem_append_right _ hx)) (by simpa using hrs.symm)
    rw [hnil, List.append_nil]
  · have hnil : rs = [] := eq_nil_of_flatten hw
      (fun x hx => hws x (List.mem_append_right _ hx)) (by simpa using hrs.symm)
    rw [hnil, List.append_nil]

/-- Values are told apart by their words, one after another, where the words
of any two tell them apart. -/
theorem flatMap_inj_of_width {γ : Type*} {enc : γ → List α} (hw : 0 < w)
    (hlen : ∀ c, (enc c).length = w) {l l' : List γ}
    (hinj : ∀ c ∈ l, ∀ d ∈ l', enc c = enc d → c = d) (h : l.flatMap enc = l'.flatMap enc) :
    l = l' := by
  induction l generalizing l' with
  | nil =>
    cases l' with
    | nil => rfl
    | cons d l' =>
      have hzero := congrArg List.length h
      rw [List.flatMap_nil, List.flatMap_cons, List.length_nil, List.length_append, hlen] at hzero
      omega
  | cons c l ih =>
    cases l' with
    | nil =>
      have hzero := congrArg List.length h
      rw [List.flatMap_nil, List.flatMap_cons, List.length_nil, List.length_append, hlen] at hzero
      omega
    | cons d l' =>
      rw [List.flatMap_cons, List.flatMap_cons] at h
      obtain ⟨hword, hrest⟩ := List.append_inj h (by rw [hlen, hlen])
      have htail : l = l' := ih (fun a ha b hb => hinj a (List.mem_cons_of_mem _ ha) b
        (List.mem_cons_of_mem _ hb)) hrest
      rw [hinj c List.mem_cons_self d List.mem_cons_self hword, htail]

/-- **Two strings of words, each after a head.** One of the two has the
words of the other at its end, and the words before them at the end of the
other's head. -/
theorem append_flatten_cases {ws vs : List (List α)} {p q : List α}
    (hw : 0 < w) (hws : ∀ x ∈ ws, x.length = w) (hvs : ∀ x ∈ vs, x.length = w)
    (h : p ++ ws.flatten = q ++ vs.flatten) :
    (∃ rs, vs = rs ++ ws ∧ p = q ++ rs.flatten) ∨ ∃ rs, ws = rs ++ vs ∧ q = p ++ rs.flatten := by
  have hlong : ∀ {ws vs : List (List α)} {p q : List α}, (∀ x ∈ ws, x.length = w) →
      (∀ x ∈ vs, x.length = w) → p ++ ws.flatten = q ++ vs.flatten → ws.length ≤ vs.length →
      ∃ rs, vs = rs ++ ws ∧ p = q ++ rs.flatten := by
    intro ws vs p q hws hvs h hle
    obtain ⟨n, hn⟩ := Nat.exists_eq_add_of_le' hle
    -- the last words of the longer string are as long as the shorter one
    have hdrop : ∀ x ∈ vs.drop n, x.length = w := fun x hx => hvs x (List.mem_of_mem_drop hx)
    have hlen : ws.flatten.length = (vs.drop n).flatten.length := by
      rw [length_flatten_of_width hws, length_flatten_of_width hdrop, List.length_drop, hn,
        Nat.add_sub_cancel_left]
    rw [← List.take_append_drop n vs, List.flatten_append, ← List.append_assoc] at h
    obtain ⟨hp, hflat⟩ := List.append_inj' h hlen
    have hsame : ws = vs.drop n := flatten_inj_of_width hw hws hdrop hflat
    exact ⟨vs.take n, by rw [hsame, List.take_append_drop], hp⟩
  rcases Nat.le_total ws.length vs.length with hle | hle
  · exact .inl (hlong hws hvs h hle)
  · exact .inr (hlong hvs hws h.symm hle)

end Words

end Rensa
