import Mathlib.Combinatorics.SimpleGraph.Acyclic
/-!
# Flooding a graph

Who gets a message sends a copy over each of its links, except back over
the one that its first copy came by. Where another copy arrives, the link
may be cut: the receiver drops its end, and asks the sender to drop the
other one. Copies and requests arrive in any order.

The first copies are what survives. They never cross in both directions,
so no request is about one of their links, and every other link carries a
copy that comes second (`Spreads`). So when no copy is under way all nodes
have the message, and where every node cuts, the links that are left form
a spanning tree (`Spreads.isTree`).
-/

namespace Rensa

open SimpleGraph

variable {P : Type}

/-! ## Parents -/

section Parents

variable {T : SimpleGraph P} {s : P} {parent : P → Option P} {rank : P → ℕ}

/-- On a cycle the node of the largest rank would have two parents. -/
theorem isAcyclic_of_parents
    (hadj : ∀ p q, T.Adj p q → parent p = some q ∨ parent q = some p)
    (hrank : ∀ p q, parent p = some q → rank q < rank p) : T.IsAcyclic := by
  classical
  intro v c hc
  obtain ⟨u, hu, hmax⟩ := c.support.toFinset.exists_max_image rank
    ⟨v, List.mem_toFinset.2 c.start_mem_support⟩
  rw [List.mem_toFinset] at hu
  have hcu : (c.rotate u hu).IsCycle := hc.rotate hu
  have hup : ∀ w ∈ (c.rotate u hu).support, T.Adj u w → parent u = some w := by
    intro w hw huw
    rcases hadj u w huw with hparent | hparent
    · exact hparent
    · have hle := hmax w (List.mem_toFinset.2 ((c.mem_support_rotate_iff u hu).1 hw))
      exact absurd (hrank w u hparent) (Nat.not_lt.2 hle)
  have hsnd := hup _ (Walk.getVert_mem_support _ 1) (Walk.adj_snd hcu.not_nil)
  have hlast := hup _ (Walk.getVert_mem_support _ _) (Walk.adj_penultimate hcu.not_nil).symm
  exact hcu.snd_ne_penultimate (Option.some.inj (hsnd.symm.trans hlast))

/-- **Parents of smaller rank** make a tree, when only one node has none. -/
theorem isTree_of_parents
    (hadj : ∀ p q, T.Adj p q ↔ parent p = some q ∨ parent q = some p)
    (hroot : ∀ p, p ≠ s → ∃ q, parent p = some q)
    (hrank : ∀ p q, parent p = some q → rank q < rank p) : T.IsTree := by
  refine ⟨?_, isAcyclic_of_parents (fun p q => (hadj p q).1) hrank⟩
  rw [connected_iff_exists_forall_reachable]
  refine ⟨s, fun p => ?_⟩
  induction hn : rank p using Nat.strong_induction_on generalizing p with
  | h n ih =>
    by_cases hp : p = s
    · rw [hp]
    · obtain ⟨q, hq⟩ := hroot p hp
      have hqs : T.Reachable s q := ih (rank q) (hn ▸ hrank p q hq) q rfl
      exact hqs.trans ((hadj q p).2 (.inr hq)).reachable

end Parents

/-! ## Floods -/

/-- Who has the message, the ends of the links, the copies under way, and
the requests to drop a link that are. -/
structure Flood (P : Type) where
  reached : P → Prop
  link : P → P → Prop
  copies : P → P → ℕ
  request : P → P → Prop

namespace Flood

variable {G : SimpleGraph P} {s a b : P} {prunes : P → Prop} {f f' : Flood P}

/-- One node has the message, and has sent it over its links. -/
structure Starts (G : SimpleGraph P) (s : P) (f : Flood P) : Prop where
  reached : ∀ p, f.reached p ↔ p = s
  link : ∀ p q, f.link p q ↔ G.Adj p q
  sent : ∀ q, G.Adj s q → f.copies s q = 1
  copies : ∀ p q, ¬ (p = s ∧ G.Adj s q) → f.copies p q = 0
  request : ∀ p q, ¬ f.request p q

/-- The first copy that a node gets. -/
structure First (a b : P) (f f' : Flood P) : Prop where
  new : ¬ f.reached b
  reached : ∀ p, f'.reached p ↔ f.reached p ∨ p = b
  link : ∀ p q, f'.link p q ↔ f.link p q
  taken : f'.copies a b + 1 = f.copies a b
  sent : ∀ q, q ≠ a → f.link b q → f'.copies b q = f.copies b q + 1
  copies : ∀ p q, ¬ (p = a ∧ q = b) → ¬ (p = b ∧ q ≠ a ∧ f.link b q) →
    f'.copies p q = f.copies p q
  request : ∀ p q, f'.request p q → f.request p q

/-- Another copy: some nodes drop the link it came by. -/
structure Again (prunes : P → Prop) (a b : P) (f f' : Flood P) : Prop where
  old : f.reached b
  reached : ∀ p, f'.reached p ↔ f.reached p
  link : ∀ p q, f'.link p q ↔ f.link p q ∧ ¬ (prunes b ∧ p = b ∧ q = a)
  taken : f'.copies a b + 1 = f.copies a b
  copies : ∀ p q, ¬ (p = a ∧ q = b) → f'.copies p q = f.copies p q
  request : ∀ p q, f'.request p q → f.request p q ∨ p = b ∧ q = a

/-- A request to drop a link. -/
structure Dropped (a b : P) (f f' : Flood P) : Prop where
  asked : f.request a b
  reached : ∀ p, f'.reached p ↔ f.reached p
  link : ∀ p q, f'.link p q ↔ f.link p q ∧ ¬ (p = b ∧ q = a)
  copies : ∀ p q, f'.copies p q = f.copies p q
  request : ∀ p q, f'.request p q → f.request p q

/-- Nothing happens to the flood. -/
structure Same (f f' : Flood P) : Prop where
  reached : ∀ p, f'.reached p ↔ f.reached p
  link : ∀ p q, f'.link p q ↔ f.link p q
  copies : ∀ p q, f'.copies p q = f.copies p q
  request : ∀ p q, f'.request p q → f.request p q

/-- One step of a flood. -/
inductive Step (prunes : P → Prop) (f f' : Flood P) : Prop
  | first (a b : P) (h : First a b f f')
  | again (a b : P) (h : Again prunes a b f f')
  | dropped (a b : P) (h : Dropped a b f f')
  | same (h : Same f f')

/-- No copy is under way. -/
def Settled (f : Flood P) : Prop := ∀ p q, f.copies p q = 0

/-! ## The links of first copies -/

/-- A link that no first copy came by, in neither direction. -/
def Crossing (parent : P → Option P) (p q : P) : Prop := parent p ≠ some q ∧ parent q ≠ some p

/-- **What holds of a flood from `s`**, with the node that the first copy of
each node came from. -/
structure Spreads (G : SimpleGraph P) (s : P) (prunes : P → Prop) (parent : P → Option P)
    (rank : P → ℕ) (f : Flood P) : Prop where
  source : f.reached s
  rooted : ∀ p, f.reached p → p ≠ s → ∃ q, parent p = some q
  parent_reached : ∀ p q, parent p = some q → f.reached p ∧ f.reached q ∧ G.Adj p q
  rank_lt : ∀ p q, parent p = some q → rank q < rank p
  kept : ∀ p q, parent p = some q → f.link p q ∧ f.link q p
  adj : ∀ p q, f.link p q → G.Adj p q
  untouched : ∀ p q, ¬ f.reached p → G.Adj p q → f.link p q ∧ f.link q p
  copy : ∀ p q, 0 < f.copies p q → f.reached p ∧ G.Adj p q ∧ Crossing parent p q
  once : ∀ p q, f.copies p q ≤ 1
  due : ∀ p q, f.reached p → ¬ f.reached q → G.Adj p q → 0 < f.copies p q
  crossing : ∀ p q, f.reached p → f.reached q → prunes q → G.Adj p q → Crossing parent p q →
    0 < f.copies p q ∨ ¬ f.link q p
  asked : ∀ p q, f.request p q → f.reached p ∧ f.reached q ∧ Crossing parent p q

variable {parent : P → Option P} {rank : P → ℕ}

theorem Crossing.symm {p q : P} (h : Crossing parent p q) : Crossing parent q p := ⟨h.2, h.1⟩

/-- A node that was not reached has no part in the first copies. -/
theorem Spreads.crossing_of_new (h : Spreads G s prunes parent rank f) (hb : ¬ f.reached b)
    (q : P) : Crossing parent b q :=
  ⟨fun hbq => hb (h.parent_reached b q hbq).1, fun hqb => hb (h.parent_reached q b hqb).2.1⟩

/-- Nothing came from a node that was not reached. -/
theorem Spreads.copies_of_new (h : Spreads G s prunes parent rank f) (hb : ¬ f.reached b)
    (q : P) : f.copies b q = 0 := by
  by_contra hcopies
  exact hb (h.copy b q (Nat.pos_of_ne_zero hcopies)).1

theorem spreads_of_starts (h : Starts G s f) :
    Spreads G s prunes (fun _ => none) (fun _ => 0) f where
  source := (h.reached s).2 rfl
  rooted p hp hps := absurd ((h.reached p).1 hp) hps
  parent_reached _ _ hq := by cases hq
  rank_lt _ _ hq := by cases hq
  kept _ _ hq := by cases hq
  adj p q := (h.link p q).1
  untouched p q _ hpq := ⟨(h.link p q).2 hpq, (h.link q p).2 hpq.symm⟩
  copy p q hpos := by
    have hsent : p = s ∧ G.Adj s q := by
      by_contra hnot
      rw [h.copies p q hnot] at hpos
      exact Nat.lt_irrefl 0 hpos
    obtain ⟨rfl, hadj⟩ := hsent
    exact ⟨(h.reached p).2 rfl, hadj, nofun, nofun⟩
  once p q := by
    by_cases hsent : p = s ∧ G.Adj s q
    · obtain ⟨rfl, hadj⟩ := hsent
      rw [h.sent q hadj]
    · rw [h.copies p q hsent]
      exact Nat.zero_le 1
  due p q hp _ hpq := by
    obtain rfl := (h.reached p).1 hp
    rw [h.sent q hpq]
    exact Nat.zero_lt_one
  crossing p q hp hq _ hpq := by
    obtain rfl := (h.reached p).1 hp
    obtain rfl := (h.reached q).1 hq
    exact absurd hpq G.irrefl
  asked p q hpq := absurd hpq (h.request p q)

/-! ## One step -/

/-- A first copy makes its sender the parent. -/
theorem Spreads.first [DecidableEq P] (h : Spreads G s prunes parent rank f)
    (hf : First a b f f') :
    Spreads G s prunes (Function.update parent b (some a))
      (Function.update rank b (rank a + 1)) f' := by
  have hnew := hf.new
  have hpos : 0 < f.copies a b := by
    have := hf.taken
    omega
  obtain ⟨ha, hab, -⟩ := h.copy a b hpos
  have hne : a ≠ b := hab.ne
  -- what is known of the others
  have hparent : ∀ p q, Function.update parent b (some a) p = some q →
      p = b ∧ q = a ∨ p ≠ b ∧ parent p = some q := by
    intro p q hpq
    by_cases hp : p = b
    · subst hp
      rw [Function.update_self] at hpq
      exact .inl ⟨rfl, (Option.some.inj hpq).symm⟩
    · rw [Function.update_of_ne hp] at hpq
      exact .inr ⟨hp, hpq⟩
  have hother : ∀ p q, Crossing parent p q → ¬ (p = a ∧ q = b) → ¬ (q = a ∧ p = b) →
      Crossing (Function.update parent b (some a)) p q := by
    intro p q hpq hne hne'
    refine ⟨fun hpq' => ?_, fun hqp => ?_⟩
    · rcases hparent p q hpq' with ⟨rfl, rfl⟩ | ⟨-, hold⟩
      · exact hne' ⟨rfl, rfl⟩
      · exact hpq.1 hold
    · rcases hparent q p hqp with ⟨rfl, rfl⟩ | ⟨-, hold⟩
      · exact hne ⟨rfl, rfl⟩
      · exact hpq.2 hold
  have hzero : f'.copies a b = 0 := by
    have := hf.taken
    have := h.once a b
    omega
  have hcopy : ∀ p q, 0 < f'.copies p q → p = b ∧ q ≠ a ∧ f.link b q ∨
      p ≠ b ∧ ¬ (p = a ∧ q = b) ∧ f'.copies p q = f.copies p q := by
    intro p q hcopies
    by_cases hpq : p = a ∧ q = b
    · obtain ⟨rfl, rfl⟩ := hpq
      rw [hzero] at hcopies
      exact absurd hcopies (Nat.lt_irrefl 0)
    · by_cases hsent : p = b ∧ q ≠ a ∧ f.link b q
      · exact .inl hsent
      · have hsame := hf.copies p q hpq hsent
        refine .inr ⟨?_, hpq, hsame⟩
        rintro rfl
        rw [hsame, h.copies_of_new hnew] at hcopies
        exact Nat.lt_irrefl 0 hcopies
  refine ⟨?_, ?_, ?_, ?_, ?_, ?_, ?_, ?_, ?_, ?_, ?_, ?_⟩
  · exact (hf.reached s).2 (.inl h.source)
  · intro p hp hps
    rcases (hf.reached p).1 hp with hp | rfl
    · by_cases hpb : p = b
      · exact ⟨a, by rw [hpb, Function.update_self]⟩
      · rw [Function.update_of_ne hpb]
        exact h.rooted p hp hps
    · exact ⟨a, Function.update_self ..⟩
  · intro p q hpq
    rw [hf.reached, hf.reached]
    rcases hparent p q hpq with ⟨rfl, rfl⟩ | ⟨-, hold⟩
    · exact ⟨.inr rfl, .inl ha, hab.symm⟩
    · obtain ⟨hp, hq, hadj⟩ := h.parent_reached p q hold
      exact ⟨.inl hp, .inl hq, hadj⟩
  · intro p q hpq
    rcases hparent p q hpq with ⟨rfl, rfl⟩ | ⟨hp, hold⟩
    · rw [Function.update_self, Function.update_of_ne hne]
      exact Nat.lt_succ_self _
    · have hq : q ≠ b := by
        rintro rfl
        exact hnew (h.parent_reached p q hold).2.1
      rw [Function.update_of_ne hp, Function.update_of_ne hq]
      exact h.rank_lt p q hold
  · intro p q hpq
    rw [hf.link, hf.link]
    rcases hparent p q hpq with ⟨rfl, rfl⟩ | ⟨-, hold⟩
    · exact h.untouched p q hnew hab.symm
    · exact h.kept p q hold
  · intro p q hpq
    exact h.adj p q ((hf.link p q).1 hpq)
  · intro p q hp hpq
    rw [hf.link, hf.link]
    exact h.untouched p q (fun hp' => hp ((hf.reached p).2 (.inl hp'))) hpq
  · intro p q hpos
    rcases hcopy p q hpos with ⟨rfl, hqa, hlink⟩ | ⟨hp, hpq, hsame⟩
    · refine ⟨(hf.reached p).2 (.inr rfl), h.adj p q hlink, ?_⟩
      exact hother p q (h.crossing_of_new hnew q) (fun heq => hne heq.1.symm)
        fun heq => hqa heq.1
    · rw [hsame] at hpos
      obtain ⟨hreached, hadj, hcross⟩ := h.copy p q hpos
      exact ⟨(hf.reached p).2 (.inl hreached), hadj, hother p q hcross hpq fun heq => hp heq.2⟩
  · intro p q
    rcases Nat.eq_zero_or_pos (f'.copies p q) with hnone | hpos
    · rw [hnone]
      exact Nat.zero_le 1
    · rcases hcopy p q hpos with ⟨rfl, hqa, hlink⟩ | ⟨-, -, hsame⟩
      · rw [hf.sent q hqa hlink, h.copies_of_new hnew]
      · rw [hsame]
        exact h.once p q
  · intro p q hp hq hpq
    have hqb : q ≠ b := fun heq => hq ((hf.reached q).2 (.inr heq))
    have hq' : ¬ f.reached q := fun hq' => hq ((hf.reached q).2 (.inl hq'))
    rcases (hf.reached p).1 hp with hp | rfl
    · have hpb : p ≠ b := by
        rintro rfl
        exact hnew hp
      rw [hf.copies p q (fun heq => hqb heq.2) fun heq => hpb heq.1]
      exact h.due p q hp hq' hpq
    · have hqa : q ≠ a := by
        rintro rfl
        exact hq' ha
      rw [hf.sent q hqa (h.untouched p q hnew hpq).1]
      exact Nat.succ_pos _
  · intro p q hp hq hprunes hpq hcross
    rw [hf.link]
    by_cases hpb : p = b
    · -- the node has just sent a copy
      subst hpb
      have hqa : q ≠ a := by
        rintro rfl
        exact hcross.1 (Function.update_self ..)
      rw [hf.sent q hqa (h.untouched p q hnew hpq).1]
      exact .inl (Nat.succ_pos _)
    have hp' : f.reached p := ((hf.reached p).1 hp).resolve_right hpb
    by_cases hqb : q = b
    · -- the copy that was due is not the one that came
      subst hqb
      have hpa : p ≠ a := by
        rintro rfl
        exact hcross.2 (Function.update_self ..)
      rw [hf.copies p q (fun heq => hpa heq.1) fun heq => hpb heq.1]
      exact .inl (h.due p q hp' hnew hpq)
    · have hq' : f.reached q := ((hf.reached q).1 hq).resolve_right hqb
      rw [hf.copies p q (fun heq => hqb heq.2) fun heq => hpb heq.1]
      refine h.crossing p q hp' hq' hprunes hpq ⟨?_, ?_⟩
      · rw [← Function.update_of_ne hpb (some a) parent]
        exact hcross.1
      · rw [← Function.update_of_ne hqb (some a) parent]
        exact hcross.2
  · intro p q hpq
    obtain ⟨hp, hq, hcross⟩ := h.asked p q (hf.request p q hpq)
    refine ⟨(hf.reached p).2 (.inl hp), (hf.reached q).2 (.inl hq), hother p q hcross ?_ ?_⟩
    · rintro ⟨-, rfl⟩
      exact hnew hq
    · rintro ⟨-, rfl⟩
      exact hnew hp

/-- An end of a link is dropped that no first copy came by: between nodes
that have the message. -/
theorem Spreads.drop (h : Spreads G s prunes parent rank f) (ha : f.reached a) (hb : f.reached b)
    (hcross : Crossing parent a b) {c : Prop} (hreached : ∀ p, f'.reached p ↔ f.reached p)
    (hlink : ∀ p q, f'.link p q ↔ f.link p q ∧ ¬ (c ∧ p = b ∧ q = a))
    (hcopies : ∀ p q, ¬ (p = a ∧ q = b) → f'.copies p q = f.copies p q)
    (hone : f'.copies a b ≤ f.copies a b)
    (hdue : f'.copies a b = f.copies a b ∨ (prunes b → c))
    (hrequest : ∀ p q, f'.request p q → f.request p q ∨ p = b ∧ q = a) :
    Spreads G s prunes parent rank f' := by
  have hle : ∀ p q, f'.copies p q ≤ f.copies p q := by
    intro p q
    by_cases hpq : p = a ∧ q = b
    · obtain ⟨rfl, rfl⟩ := hpq
      exact hone
    · exact Nat.le_of_eq (hcopies p q hpq)
  have hkeep : ∀ p q, f.link p q → ¬ (p = b ∧ q = a) → f'.link p q := fun p q hpq hne =>
    (hlink p q).2 ⟨hpq, fun heq => hne heq.2⟩
  refine ⟨?_, ?_, ?_, h.rank_lt, ?_, ?_, ?_, ?_, ?_, ?_, ?_, ?_⟩
  · exact (hreached s).2 h.source
  · exact fun p hp => h.rooted p ((hreached p).1 hp)
  · intro p q hpq
    rw [hreached, hreached]
    exact h.parent_reached p q hpq
  · intro p q hpq
    obtain ⟨hpq', hqp⟩ := h.kept p q hpq
    refine ⟨hkeep p q hpq' ?_, hkeep q p hqp ?_⟩
    · rintro ⟨rfl, rfl⟩
      exact hcross.2 hpq
    · rintro ⟨rfl, rfl⟩
      exact hcross.1 hpq
  · exact fun p q hpq => h.adj p q ((hlink p q).1 hpq).1
  · intro p q hp hpq
    rw [hreached] at hp
    obtain ⟨hpq', hqp⟩ := h.untouched p q hp hpq
    refine ⟨hkeep p q hpq' ?_, hkeep q p hqp ?_⟩
    · rintro ⟨rfl, -⟩
      exact hp hb
    · rintro ⟨-, rfl⟩
      exact hp ha
  · intro p q hpos
    rw [hreached]
    exact h.copy p q (Nat.lt_of_lt_of_le hpos (hle p q))
  · exact fun p q => (hle p q).trans (h.once p q)
  · intro p q hp hq hpq
    rw [hreached] at hp hq
    have hne : ¬ (p = a ∧ q = b) := by
      rintro ⟨-, rfl⟩
      exact hq hb
    rw [hcopies p q hne]
    exact h.due p q hp hq hpq
  · intro p q hp hq hprunes hpq hcross'
    rw [hreached] at hp hq
    rcases h.crossing p q hp hq hprunes hpq hcross' with hpos | hnone
    · by_cases hab : p = a ∧ q = b
      · obtain ⟨rfl, rfl⟩ := hab
        rcases hdue with hsame | hc
        · exact .inl (hsame ▸ hpos)
        · exact .inr fun hlink' => ((hlink q p).1 hlink').2 ⟨hc hprunes, rfl, rfl⟩
      · rw [hcopies p q hab]
        exact .inl hpos
    · exact .inr fun hlink' => hnone ((hlink q p).1 hlink').1
  · intro p q hpq
    rw [hreached, hreached]
    rcases hrequest p q hpq with hpq | ⟨rfl, rfl⟩
    · exact h.asked p q hpq
    · exact ⟨hb, ha, hcross.symm⟩

theorem Spreads.same (h : Spreads G s prunes parent rank f) (hf : Same f f') :
    Spreads G s prunes parent rank f' := by
  obtain ⟨hreached, hlink, hcopies, hrequest⟩ := hf
  refine ⟨(hreached s).2 h.source, fun p hp => h.rooted p ((hreached p).1 hp), fun p q hpq => ?_,
    h.rank_lt, fun p q hpq => ?_, fun p q hpq => h.adj p q ((hlink p q).1 hpq),
    fun p q hp hpq => ?_, fun p q hpos => ?_, fun p q => ?_, fun p q hp hq hpq => ?_,
    fun p q hp hq hprunes hpq hcross => ?_, fun p q hpq => ?_⟩
  · rw [hreached, hreached]
    exact h.parent_reached p q hpq
  · rw [hlink, hlink]
    exact h.kept p q hpq
  · rw [hlink, hlink]
    exact h.untouched p q (fun hp' => hp ((hreached p).2 hp')) hpq
  · rw [hcopies] at hpos
    rw [hreached]
    exact h.copy p q hpos
  · rw [hcopies]
    exact h.once p q
  · rw [hcopies]
    exact h.due p q ((hreached p).1 hp) (fun hq' => hq ((hreached q).2 hq')) hpq
  · rw [hcopies, hlink]
    exact h.crossing p q ((hreached p).1 hp) ((hreached q).1 hq) hprunes hpq hcross
  · rw [hreached, hreached]
    exact h.asked p q (hrequest p q hpq)

/-- **One step.** -/
theorem Spreads.step (h : Spreads G s prunes parent rank f) (hstep : Step prunes f f') :
    ∃ parent' rank', Spreads G s prunes parent' rank' f' := by
  classical
  cases hstep with
  | first a b hf => exact ⟨_, _, h.first hf⟩
  | again a b hf =>
    have hpos : 0 < f.copies a b := by
      have := hf.taken
      omega
    obtain ⟨ha, -, hcross⟩ := h.copy a b hpos
    have hone : f'.copies a b ≤ f.copies a b := by
      have := hf.taken
      omega
    exact ⟨parent, rank, h.drop ha hf.old hcross hf.reached hf.link hf.copies hone
      (.inr id) hf.request⟩
  | dropped a b hf =>
    obtain ⟨ha, hb, hcross⟩ := h.asked a b hf.asked
    refine ⟨parent, rank, h.drop ha hb hcross (c := True) hf.reached (fun p q => ?_)
      (fun p q _ => hf.copies p q) (Nat.le_of_eq (hf.copies a b)) (.inl (hf.copies a b))
      fun p q hpq => .inl (hf.request p q hpq)⟩
    rw [hf.link, true_and]
  | same hf => exact ⟨parent, rank, h.same hf⟩

/-! ## When it has settled -/

/-- **Every node has the message** when no copy is under way. -/
theorem Spreads.reached_of_settled (h : Spreads G s prunes parent rank f) (hsettled : f.Settled)
    (hconnected : G.Connected) (p : P) : f.reached p := by
  obtain ⟨w⟩ := hconnected.preconnected s p
  have hwalk : ∀ {q r : P}, G.Walk q r → f.reached q → f.reached r := by
    intro q r w
    induction w with
    | nil => exact id
    | @cons q v r hqv _ ih =>
      intro hq
      refine ih ?_
      by_contra hv
      have hpos := h.due q v hq hv hqv
      rw [hsettled] at hpos
      exact Nat.lt_irrefl 0 hpos
  exact hwalk w h.source

/-- The links that are left are those of the first copies. -/
theorem Spreads.link_iff (h : Spreads G s prunes parent rank f) (hsettled : f.Settled)
    (hconnected : G.Connected) (hprunes : ∀ p, prunes p) (p q : P) :
    f.link p q ↔ parent p = some q ∨ parent q = some p := by
  constructor
  · intro hpq
    by_contra hcross
    rw [not_or] at hcross
    have hreached := h.reached_of_settled hsettled hconnected
    rcases h.crossing q p (hreached q) (hreached p) (hprunes p) (h.adj p q hpq).symm
      ⟨hcross.2, hcross.1⟩ with hpos | hnone
    · rw [hsettled] at hpos
      exact Nat.lt_irrefl 0 hpos
    · exact hnone hpq
  · rintro (hpq | hqp)
    · exact (h.kept p q hpq).1
    · exact (h.kept q p hqp).2

/-- **The links that are left are a spanning tree.** -/
theorem Spreads.isTree (h : Spreads G s prunes parent rank f) (hsettled : f.Settled)
    (hconnected : G.Connected) (hprunes : ∀ p, prunes p) {T : SimpleGraph P}
    (hT : ∀ p q, T.Adj p q ↔ f.link p q) : T.IsTree := by
  have hadj : ∀ p q, T.Adj p q ↔ parent p = some q ∨ parent q = some p := fun p q => by
    rw [hT, h.link_iff hsettled hconnected hprunes]
  exact isTree_of_parents hadj
    (fun p hp => h.rooted p (h.reached_of_settled hsettled hconnected p) hp) h.rank_lt

end Flood

end Rensa
