import Mathlib
/-!
# Logs in which nothing comes too early

An entry of a log gives a fact, or none, and needs some facts. In a causal
log every entry finds what it needs among the facts that were there from
the start and those of the entries before it. Entries can be put at the
end of such a log, or into the middle, where what they need is there: for
the others there is only more before them (`CausalFrom.insert`).
-/

namespace Rensa

variable {ε φ : Type*}

section Log

variable (gives : ε → Option φ) (needs : ε → List φ)

/-- Every entry finds what it needs, in `seen` or before it. -/
def CausalFrom (seen : List φ) : List ε → Prop
  | [] => True
  | e :: l => (∀ x ∈ needs e, x ∈ seen) ∧ CausalFrom (seen ++ (gives e).toList) l

instance decidableCausalFrom [DecidableEq φ] (seen : List φ) :
    (l : List ε) → Decidable (CausalFrom gives needs seen l)
  | [] => .isTrue trivial
  | e :: l => @instDecidableAnd _ _ (inferInstanceAs (Decidable (∀ x ∈ needs e, x ∈ seen)))
      (decidableCausalFrom (seen ++ (gives e).toList) l)

end Log

namespace CausalFrom

variable {gives : ε → Option φ} {needs : ε → List φ} {seen seen' : List φ} {l l' m : List ε} {e : ε}

theorem mono (h : CausalFrom gives needs seen l) (hseen : ∀ x ∈ seen, x ∈ seen') :
    CausalFrom gives needs seen' l := by
  induction l generalizing seen seen' with
  | nil => trivial
  | cons e l ih =>
    refine ⟨fun x hx => hseen x (h.1 x hx), ih h.2 fun x hx => ?_⟩
    rcases List.mem_append.1 hx with hx | hx
    · exact List.mem_append_left _ (hseen x hx)
    · exact List.mem_append_right _ hx

theorem append : CausalFrom gives needs seen (l ++ l') ↔
    CausalFrom gives needs seen l ∧ CausalFrom gives needs (seen ++ l.filterMap gives) l' := by
  induction l generalizing seen with
  | nil => simp [CausalFrom]
  | cons e l ih =>
    have hgives : (e :: l).filterMap gives = (gives e).toList ++ l.filterMap gives := by
      cases he : gives e <;> simp [he]
    rw [List.cons_append, CausalFrom, ih, CausalFrom, hgives, List.append_assoc, and_assoc]

/-- **Entries put into the middle** of a log. -/
theorem insert (h : CausalFrom gives needs seen (l ++ l'))
    (hm : CausalFrom gives needs (seen ++ l.filterMap gives) m) :
    CausalFrom gives needs seen (l ++ (m ++ l')) := by
  rw [append] at h
  rw [append, append]
  exact ⟨h.1, hm, h.2.mono fun x hx => List.mem_append_left _ hx⟩

/-- Entries that need nothing, put at the end. -/
theorem append_free (h : CausalFrom gives needs seen l) (hfree : ∀ e ∈ l', needs e = []) :
    CausalFrom gives needs seen (l ++ l') := by
  rw [append]
  refine ⟨h, ?_⟩
  generalize seen ++ l.filterMap gives = seen'
  induction l' generalizing seen' with
  | nil => trivial
  | cons e l' ih =>
    refine ⟨fun x hx => ?_, ih (fun e he => hfree e (List.mem_cons_of_mem _ he)) _⟩
    rw [hfree e List.mem_cons_self] at hx
    cases hx

/-- A log is causal where what each entry needs is before it. -/
theorem of_split
    (h : ∀ m e m', l = m ++ e :: m' → ∀ x ∈ needs e, x ∈ seen ∨ x ∈ m.filterMap gives) :
    CausalFrom gives needs seen l := by
  induction l using List.reverseRecOn with
  | nil => trivial
  | append_singleton l e ih =>
    rw [append]
    refine ⟨ih fun m e' m' hl x hx => h m e' (m' ++ [e]) (by rw [hl]; simp) x hx, fun x hx => ?_,
      trivial⟩
    exact List.mem_append.2 (h l e [] rfl x hx)

/-- What an entry needs is before it. -/
theorem mem_of_split (h : CausalFrom gives needs seen (l ++ e :: l')) {x : φ} (hx : x ∈ needs e) :
    x ∈ seen ∨ x ∈ l.filterMap gives := by
  rw [append] at h
  exact List.mem_append.1 (h.2.1 x hx)

end CausalFrom

end Rensa
