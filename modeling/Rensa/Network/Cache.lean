import Rensa.Network.Model.Tree
/-!
# What the cache of messages holds

The cache keeps its records by key, where one with fewer hops replaces the
one that is there, and by time, where the first record of a key stays.
Under a clock that does not go back the two have the same keys, and the
history of the insertions says what is in them: the first insertion of a
key since it was last removed, and the record with the fewest hops
(`Represents`, `representation_run`). A range query reads the records by
time, between two binary searches. So it yields old records, misses or adds
keys where two were inserted at one time, and panics where the range is the
wrong way round (`answers_iff`).
-/

namespace Rensa

namespace Network

namespace ExpiringCache

open BinarySearch (Sorted lowerBound upperBound)

variable {α : Type} [Hopped α]

/-! ## Operations -/

section Operations

variable (c : ExpiringCache α) (item : α) (now : ℤ)

/-- What is found by key after an insertion. -/
theorem get_insert (k : UInt64) : (c.insert item now).2.get k =
    if k = Hopped.key item then
      match c.get k with
      | none => some item
      | some old => some (if Hopped.hop item < Hopped.hop old then item else old)
    else c.get k := by
  unfold insert get
  by_cases hk : k = Hopped.key item
  · subst hk
    rw [if_pos rfl]
    cases hold : c.data (Hopped.key item) with
    | none => simp
    | some old =>
      dsimp only
      split
      · simp
      · exact hold
  · rw [if_neg hk]
    cases hold : c.data (Hopped.key item) with
    | none => simp [hk]
    | some old =>
      dsimp only
      split
      · simp [hk]
      · rfl

/-- What is found by time after an insertion. -/
theorem byTime_insert : (c.insert item now).2.byTime =
    if (c.get (Hopped.key item)).isSome then c.byTime else c.byTime ++ [(item, now)] := by
  unfold insert get
  cases c.data (Hopped.key item) with
  | none => rfl
  | some old =>
    dsimp only
    split
    · rfl
    · rfl

/-- The loop of `remove_older_than` takes the records of the front out of
both collections. -/
theorem removeFront_spec (since : ℤ) (l : List (α × ℤ)) (data : UInt64 → Option α) :
    (removeFront since l data).byTime = l.dropWhile (fun x => x.2 ≤ since) ∧
      ∀ k, (removeFront since l data).data k =
        if k ∈ (l.takeWhile fun x => x.2 ≤ since).map fun x => Hopped.key x.1 then none
        else data k := by
  induction l generalizing data with
  | nil => exact ⟨rfl, fun k => (if_neg List.not_mem_nil).symm⟩
  | cons x l ih =>
    unfold removeFront
    by_cases hx : since < x.2
    · rw [if_pos hx, List.dropWhile_cons_of_neg (by simpa using hx),
        List.takeWhile_cons_of_neg (by simpa using hx)]
      exact ⟨rfl, fun k => (if_neg List.not_mem_nil).symm⟩
    · obtain ⟨hbyTime, hdata⟩ := ih (Function.update data (Hopped.key x.1) none)
      rw [if_neg hx, List.dropWhile_cons_of_pos (by simpa using hx),
        List.takeWhile_cons_of_pos (by simpa using hx)]
      refine ⟨hbyTime, fun k => ?_⟩
      rw [hdata]
      by_cases hk : k = Hopped.key x.1
      · simp [hk]
      · simp only [List.map_cons, List.mem_cons, or_iff_right hk, Function.update_of_ne hk]

end Operations

/-! ## Runs -/

/-- What is done to a cache. -/
inductive Op (α : Type)
  | insert (item : α) (now : ℤ)
  | removeOlderThan (since : ℤ)

/-- The reading of the clock. -/
def Op.clock : Op α → Option ℤ
  | .insert _ now => some now
  | .removeOlderThan _ => none

/-- A cache with its past: the insertions of every key since it was last
removed. -/
structure Session (α : Type) where
  cache : ExpiringCache α := {}
  since : UInt64 → List (α × ℤ) := fun _ => []

/-- The record with the fewest hops, the first one of them. -/
def fewest : List (α × ℤ) → Option α
  | [] => none
  | x :: l => some (l.foldl (fun old y => if Hopped.hop y.1 < Hopped.hop old then y.1 else old) x.1)

theorem fewest_append (l : List (α × ℤ)) (y : α × ℤ) : fewest (l ++ [y]) =
    match fewest l with
    | none => some y.1
    | some old => some (if Hopped.hop y.1 < Hopped.hop old then y.1 else old) := by
  cases l with
  | nil => rfl
  | cons x l => simp only [fewest, List.cons_append, List.foldl_append, List.foldl_cons,
      List.foldl_nil]

theorem fewest_eq_none {l : List (α × ℤ)} : fewest l = none ↔ l = [] := by
  cases l with
  | nil => exact iff_of_true rfl rfl
  | cons x l => exact iff_of_false (Option.some_ne_none _) (List.cons_ne_nil x l)

/-- The record is one of the list, and none has fewer hops. -/
theorem fewest_eq_some {l : List (α × ℤ)} {r : α} (h : fewest l = some r) :
    r ∈ l.map Prod.fst ∧ ∀ x ∈ l, Hopped.hop r ≤ Hopped.hop x.1 := by
  induction l using List.reverseRecOn generalizing r with
  | nil => cases h
  | append_singleton l y ih =>
    rw [fewest_append] at h
    split at h
    next hnone =>
      cases h
      obtain rfl := fewest_eq_none.1 hnone
      simp
    next old hold =>
      obtain ⟨hmem, hle⟩ := ih hold
      cases h
      split
      next hlt =>
        refine ⟨by simp, fun x hx => ?_⟩
        rcases List.mem_append.1 hx with hx | hx
        · exact UInt32.le_trans (UInt32.le_of_lt hlt) (hle x hx)
        · rw [List.mem_singleton.1 hx]
          exact UInt32.le_refl _
      next hnlt =>
        refine ⟨by simp [List.mem_map.1 hmem], fun x hx => ?_⟩
        rcases List.mem_append.1 hx with hx | hx
        · exact hle x hx
        · rw [List.mem_singleton.1 hx]
          exact UInt32.not_lt.1 hnlt

/-- The first record stays until one has fewer hops. -/
theorem fewest_cons {x : α × ℤ} {l : List (α × ℤ)}
    (h : ∀ y ∈ l, Hopped.hop x.1 ≤ Hopped.hop y.1) : fewest (x :: l) = some x.1 := by
  induction l using List.reverseRecOn with
  | nil => rfl
  | append_singleton l y ih =>
    rw [← List.cons_append, fewest_append, ih fun y hy => h y (List.mem_append_left _ hy)]
    dsimp only
    rw [if_neg (UInt32.not_lt.2 (h y (by simp)))]

namespace Session

variable {s : Session α} {k : UInt64} {t : ℤ}

/-- When a key was inserted first since it was last removed. -/
def firstTime (s : Session α) (k : UInt64) : Option ℤ := (s.since k).head?.map Prod.snd

/-- One operation. The past is told by the operations alone: a removal is
of the keys that were first inserted at the time or before it. -/
def step (s : Session α) : Op α → Session α
  | .insert item now =>
    { cache := (s.cache.insert item now).2
      since := Function.update s.since (Hopped.key item)
        (s.since (Hopped.key item) ++ [(item, now)]) }
  | .removeOlderThan since =>
    { cache := s.cache.removeOlderThan since
      since := fun k => if (s.firstTime k).any (· ≤ since) then [] else s.since k }

/-- Operations one after another, on a new cache. -/
def run (ops : List (Op α)) : Session α := ops.foldl step {}

theorem since_insert (item : α) (now : ℤ) (k : UInt64) :
    (s.step (.insert item now)).since k =
      if k = Hopped.key item then s.since k ++ [(item, now)] else s.since k := by
  by_cases hk : k = Hopped.key item
  · rw [if_pos hk, hk]
    exact Function.update_self _ _ _
  · rw [if_neg hk]
    exact Function.update_of_ne hk _ _

theorem since_removeOlderThan (since : ℤ) (k : UInt64) :
    (s.step (.removeOlderThan since)).since k =
      if (s.firstTime k).any (· ≤ since) then [] else s.since k := rfl

/-- The keys by time. -/
def timed (s : Session α) : List UInt64 := s.cache.byTime.map fun x => Hopped.key x.1

/-- **The history says what is in the two collections.** -/
structure Represents (s : Session α) : Prop where
  sorted : Sorted Prod.snd s.cache.byTime
  nodup : s.timed.Nodup
  first : ∀ x, x ∈ s.cache.byTime ↔ (s.since (Hopped.key x.1)).head? = some x
  record : ∀ k, s.cache.get k = fewest (s.since k)
  keyed : ∀ k, ∀ x ∈ s.since k, Hopped.key x.1 = k

theorem key_mem_timed {x : α × ℤ} (hx : x ∈ s.cache.byTime) : Hopped.key x.1 ∈ s.timed :=
  List.mem_map_of_mem (f := fun x : α × ℤ => Hopped.key x.1) hx

namespace Represents

/-- A key that is held has a first insertion. -/
theorem exists_first (hs : s.Represents) (h : (s.cache.get k).isSome) :
    ∃ x ∈ s.cache.byTime, Hopped.key x.1 = k ∧ (s.since k).head? = some x := by
  rw [hs.record, Option.isSome_iff_ne_none, Ne, fewest_eq_none] at h
  obtain ⟨x, l, hl⟩ := List.exists_cons_of_ne_nil h
  have hx : Hopped.key x.1 = k := hs.keyed k x (by rw [hl]; exact List.mem_cons_self)
  refine ⟨x, (hs.first x).2 ?_, hx, by rw [hl]; rfl⟩
  rw [hx, hl]
  rfl

theorem mem_timed (hs : s.Represents) : k ∈ s.timed ↔ (s.cache.get k).isSome := by
  constructor
  · intro h
    obtain ⟨x, hx, rfl⟩ := List.mem_map.1 h
    rw [hs.record, Option.isSome_iff_ne_none, Ne, fewest_eq_none]
    intro hnil
    have hhead := (hs.first x).1 hx
    rw [hnil] at hhead
    cases hhead
  · intro h
    obtain ⟨x, hx, rfl, -⟩ := hs.exists_first h
    exact key_mem_timed hx

/-- The times in the cache are those of the first insertions. -/
theorem firstTime_eq_some (hs : s.Represents) :
    s.firstTime k = some t ↔ ∃ x ∈ s.cache.byTime, Hopped.key x.1 = k ∧ x.2 = t := by
  unfold firstTime
  rw [Option.map_eq_some_iff]
  constructor
  · rintro ⟨x, hx, rfl⟩
    have hk : Hopped.key x.1 = k := hs.keyed k x (List.mem_of_mem_head? hx)
    exact ⟨x, (hs.first x).2 (hk ▸ hx), hk, rfl⟩
  · rintro ⟨x, hx, rfl, rfl⟩
    exact ⟨x, (hs.first x).1 hx, rfl⟩

theorem firstTime_of_mem (hs : s.Represents) {x : α × ℤ} (hx : x ∈ s.cache.byTime) :
    s.firstTime (Hopped.key x.1) = some x.2 := hs.firstTime_eq_some.2 ⟨x, hx, rfl, rfl⟩

/-- **What `remove_older_than` leaves by key.** -/
theorem get_removeOlderThan (hs : s.Represents) (since : ℤ) (k : UInt64) :
    (s.cache.removeOlderThan since).get k =
      if (s.firstTime k).any (· ≤ since) then none else s.cache.get k := by
  have hold : (k ∈ (s.cache.byTime.takeWhile fun x => x.2 ≤ since).map fun x => Hopped.key x.1) ↔
      (s.firstTime k).any (· ≤ since) := by
    rw [Option.any_eq_true, List.mem_map]
    constructor
    · rintro ⟨x, hx, rfl⟩
      obtain ⟨hx, hle⟩ := hs.sorted.mem_takeWhile_le.1 hx
      exact ⟨x.2, hs.firstTime_of_mem hx, decide_eq_true hle⟩
    · rintro ⟨t, ht, hle⟩
      obtain ⟨x, hx, hk, rfl⟩ := hs.firstTime_eq_some.1 ht
      exact ⟨x, hs.sorted.mem_takeWhile_le.2 ⟨hx, of_decide_eq_true hle⟩, hk⟩
  unfold removeOlderThan get
  rw [(removeFront_spec since s.cache.byTime s.cache.data).2 k]
  exact if_congr hold rfl rfl

/-- And by time. -/
theorem byTime_removeOlderThan (hs : s.Represents) (since : ℤ) :
    (s.cache.removeOlderThan since).byTime = s.cache.byTime.filter fun x => since < x.2 :=
  (removeFront_spec since s.cache.byTime s.cache.data).1.trans (hs.sorted.dropWhile_le since)

/-- The first insertion of a key stays, and of a key that is not held it is
the one that is made. -/
theorem head_since_insert (hs : s.Represents) (item : α) (now : ℤ) :
    ((s.step (.insert item now)).since k).head? =
      if k = Hopped.key item ∧ ¬ (s.cache.get k).isSome then some (item, now)
      else (s.since k).head? := by
  rw [since_insert]
  by_cases hk : k = Hopped.key item
  · rw [if_pos hk, List.head?_append]
    by_cases hheld : (s.cache.get k).isSome
    · obtain ⟨y, -, -, hy⟩ := hs.exists_first hheld
      rw [if_neg fun h => h.2 hheld, hy]
      rfl
    · have hnil : s.since k = [] := by
        rwa [Option.not_isSome_iff_eq_none, hs.record, fewest_eq_none] at hheld
      rw [if_pos ⟨hk, hheld⟩, hnil]
      rfl
  · rw [if_neg hk, if_neg fun h => hk h.1]

/-- So the records by time are those of the first insertions. -/
theorem mem_byTime_insert (hs : s.Represents) (item : α) (now : ℤ) (x : α × ℤ) :
    x ∈ (s.cache.insert item now).2.byTime ↔
      ((s.step (.insert item now)).since (Hopped.key x.1)).head? = some x := by
  rw [byTime_insert, hs.head_since_insert]
  by_cases hheld : (s.cache.get (Hopped.key item)).isSome
  · rw [if_pos hheld, if_neg fun h => h.2 (h.1 ▸ hheld), hs.first]
  · rw [if_neg hheld, List.mem_append, List.mem_singleton]
    split
    next hnew =>
      have hnot : x ∉ s.cache.byTime := fun hmem =>
        hnew.2 (hs.mem_timed.1 (key_mem_timed hmem))
      rw [or_iff_right hnot, Option.some.injEq, eq_comm]
    next hold =>
      have hne : x ≠ (item, now) := by
        rintro rfl
        exact hold ⟨rfl, hheld⟩
      rw [or_iff_left hne, hs.first]

/-- **An insertion**, at a time that is not before the others. -/
theorem insert (hs : s.Represents) (item : α) {now : ℤ}
    (hnow : ∀ x ∈ s.cache.byTime, x.2 ≤ now) : (s.step (.insert item now)).Represents := by
  have hbyTime := s.cache.byTime_insert item now
  refine ⟨?_, ?_, hs.mem_byTime_insert item now, fun k => ?_, fun k x hx => ?_⟩
  · show Sorted Prod.snd (s.cache.insert item now).2.byTime
    rw [hbyTime]
    split
    · exact hs.sorted
    · refine List.pairwise_append.2 ⟨hs.sorted, List.pairwise_singleton _ _, fun x hx y hy => ?_⟩
      rw [List.mem_singleton.1 hy]
      exact hnow x hx
  · show ((s.cache.insert item now).2.byTime.map _).Nodup
    rw [hbyTime]
    split
    · exact hs.nodup
    next hnew =>
      rw [List.map_append, List.map_cons, List.map_nil, ← List.concat_eq_append]
      exact hs.nodup.concat fun hmem => hnew (hs.mem_timed.1 hmem)
  · rw [since_insert]
    show (s.cache.insert item now).2.get k = _
    rw [get_insert]
    split
    · rw [fewest_append, hs.record]
    · exact hs.record k
  · rw [since_insert] at hx
    split at hx
    next hk =>
      rw [List.mem_append, List.mem_singleton] at hx
      rcases hx with hx | rfl
      · exact hs.keyed k x hx
      · exact hk.symm
    · exact hs.keyed k x hx

/-- **A removal.** -/
theorem removeOlderThan (hs : s.Represents) (since : ℤ) :
    (s.step (.removeOlderThan since)).Represents := by
  have hget := hs.get_removeOlderThan since
  have hbyTime := hs.byTime_removeOlderThan since
  have hsub : (s.cache.removeOlderThan since).byTime.Sublist s.cache.byTime := by
    rw [hbyTime]
    exact List.filter_sublist
  refine ⟨hs.sorted.sublist hsub, hs.nodup.sublist (hsub.map _), fun x => ?_, fun k => ?_,
    fun k x hx => ?_⟩
  · rw [since_removeOlderThan]
    show x ∈ (s.cache.removeOlderThan since).byTime ↔ _
    rw [hbyTime, List.mem_filter, hs.first x, decide_eq_true_iff]
    constructor
    · rintro ⟨hx, hlt⟩
      rw [hs.firstTime_of_mem ((hs.first x).2 hx), if_neg (by simpa using hlt)]
      exact hx
    · intro hx
      split at hx
      · cases hx
      next hlater =>
        refine ⟨hx, not_le.1 fun hle => hlater ?_⟩
        rw [hs.firstTime_of_mem ((hs.first x).2 hx)]
        exact decide_eq_true hle
  · rw [since_removeOlderThan]
    show (s.cache.removeOlderThan since).get k = _
    rw [hget]
    split
    · rfl
    · exact hs.record k
  · rw [since_removeOlderThan] at hx
    split at hx
    · cases hx
    · exact hs.keyed k x hx

/-- **One operation**, with a clock that does not go back. -/
theorem step (hs : s.Represents) {op : Op α}
    (hclock : ∀ now ∈ op.clock, ∀ x ∈ s.cache.byTime, x.2 ≤ now) : (s.step op).Represents := by
  cases op with
  | insert item now => exact hs.insert item (hclock now rfl)
  | removeOlderThan since => exact hs.removeOlderThan since

end Represents

/-- The times in the cache are readings of the clock. -/
theorem mem_clock_of_step {op : Op α} {x : α × ℤ} (hx : x ∈ (s.step op).cache.byTime) :
    x ∈ s.cache.byTime ∨ x.2 ∈ op.clock := by
  cases op with
  | insert item now =>
    replace hx : x ∈ (s.cache.insert item now).2.byTime := hx
    rw [byTime_insert] at hx
    split at hx
    · exact .inl hx
    · rcases List.mem_append.1 hx with hx | hx
      · exact .inl hx
      · rw [List.mem_singleton.1 hx]
        exact .inr rfl
  | removeOlderThan since =>
    replace hx : x ∈ (s.cache.removeOlderThan since).byTime := hx
    rw [ExpiringCache.removeOlderThan,
      (removeFront_spec since s.cache.byTime s.cache.data).1] at hx
    exact .inl ((List.dropWhile_sublist _).subset hx)

theorem run_append_singleton (ops : List (Op α)) (op : Op α) :
    run (ops ++ [op]) = (run ops).step op := by
  simp [run]

/-- **In every run** whose clock does not go back. -/
theorem represents_run {ops : List (Op α)} (hclock : (ops.filterMap Op.clock).Pairwise (· ≤ ·)) :
    (run ops).Represents ∧ ∀ x ∈ (run ops).cache.byTime, x.2 ∈ ops.filterMap Op.clock := by
  induction ops using List.reverseRecOn with
  | nil =>
    refine ⟨⟨List.Pairwise.nil, List.nodup_nil, fun x => ?_, fun k => rfl, nofun⟩, nofun⟩
    exact iff_of_false List.not_mem_nil nofun
  | append_singleton ops op ih =>
    rw [List.filterMap_append, List.pairwise_append] at hclock
    obtain ⟨hpre, -, hlast⟩ := hclock
    obtain ⟨hs, htimes⟩ := ih hpre
    rw [run_append_singleton]
    refine ⟨hs.step fun now hnow x hx => ?_, fun x hx => ?_⟩
    · exact hlast x.2 (htimes x hx) now (List.mem_filterMap.2 ⟨op, by simp, hnow⟩)
    · rw [List.filterMap_append, List.mem_append]
      rcases mem_clock_of_step hx with hx | hx
      · exact .inl (htimes x hx)
      · exact .inr (List.mem_filterMap.2 ⟨op, by simp, hx⟩)

/-- **The two collections agree**, and hold what the past says: the records
by time are in order, one for each key that is held by key; the keys held
are those that were inserted and not removed since; a key is inserted as
new where it is not held; what is removed are the keys whose first
insertion is old enough; and the record of a key is the first one with the
fewest hops since then. -/
structure Faithful (s : Session α) : Prop where
  sorted : s.cache.byTime.Pairwise fun x y => x.2 ≤ y.2
  nodup : s.timed.Nodup
  keys : ∀ k, k ∈ s.timed ↔ (s.cache.get k).isSome
  held : ∀ k, (s.cache.get k).isSome ↔ s.since k ≠ []
  fresh : ∀ item now, (s.cache.insert item now).1 = true ↔ Hopped.key item ∉ s.timed
  removed : ∀ t k, (s.cache.removeOlderThan t).get k =
    if (s.firstTime k).any (· ≤ t) then none else s.cache.get k
  record : ∀ k, s.cache.get k = ExpiringCache.fewest (s.since k)
  fewest : ∀ k r, s.cache.get k = some r →
    r ∈ (s.since k).map Prod.fst ∧ ∀ x ∈ s.since k, Hopped.hop r ≤ Hopped.hop x.1

/-- **Every run is faithful** whose clock does not go back. -/
theorem representation_run (ops : List (Op α))
    (hclock : (ops.filterMap Op.clock).Pairwise (· ≤ ·)) : (run ops).Faithful := by
  obtain ⟨hs, -⟩ := represents_run hclock
  refine ⟨hs.sorted, hs.nodup, fun k => hs.mem_timed, fun k => ?_, fun item now => ?_,
    fun t k => hs.get_removeOlderThan t k, hs.record, fun k r hr => ?_⟩
  · rw [hs.record, Option.isSome_iff_ne_none, Ne, fewest_eq_none]
  · rw [insert_fst, hs.mem_timed, Bool.not_eq_true', Bool.not_eq_true]
  · rw [hs.record] at hr
    exact fewest_eq_some hr

/-- A key that is inserted twice, with fewer hops the second time, next to
another one that is removed. -/
def twice : List (Op (MessageInfo Unit)) :=
  [.insert ⟨8, 1, ()⟩ 0, .insert ⟨7, 5, ()⟩ 1, .insert ⟨7, 2, ()⟩ 1, .removeOlderThan 0]

theorem representation_run_twice : (run twice).Faithful ∧
    (run twice).since 7 = [(⟨7, 5, ()⟩, 1), (⟨7, 2, ()⟩, 1)] ∧
    (run twice).cache.get 7 = some ⟨7, 2, ()⟩ ∧ (run twice).cache.get 8 = none :=
  ⟨representation_run twice (by decide), rfl, rfl, rfl⟩

/-! ## Range queries -/

/-- The records a range query is for: once each, the current records of the
keys that were first inserted in the range. -/
structure Lists (s : Session α) (start stop : ℤ) (out : List α) : Prop where
  nodup : (out.map Hopped.key).Nodup
  mem_iff : ∀ r, r ∈ out ↔ s.cache.get (Hopped.key r) = some r ∧
    ∃ t, s.firstTime (Hopped.key r) = some t ∧ start ≤ t ∧ t < stop

/-- A range query does not panic and gives these records, wherever its
searches land. -/
def Answers (s : Session α) (start stop : ℤ) : Prop :=
  ∀ landing, ∃ out, s.cache.iterRange landing start stop = some out ∧ s.Lists start stop out

/-- One key at most was first inserted at some time. -/
def Single (s : Session α) (t : ℤ) : Prop :=
  ∀ k k', s.firstTime k = some t → s.firstTime k' = some t → k = k'

/-- What a range query needs.
- Where the range is not empty: one key at most at either end, and no key
  of the range that was inserted again with fewer hops.
- Where it is the wrong way round: no key between its ends, and one at most
  where it starts. -/
structure Clear (s : Session α) (start stop : ℤ) : Prop where
  ends : start < stop → s.Single start ∧ s.Single stop
  kept : ∀ k t, s.firstTime k = some t → start ≤ t → t < stop →
    ∀ first ∈ (s.since k).head?, ∀ x ∈ s.since k, Hopped.hop first.1 ≤ Hopped.hop x.1
  wrong : stop < start → s.Single start ∧ ∀ k t, s.firstTime k = some t → ¬ (stop ≤ t ∧ t < start)

namespace Represents

/-- The entries by time are distinct. -/
theorem nodup_byTime (hs : s.Represents) : s.cache.byTime.Nodup := List.Nodup.of_map _ hs.nodup

theorem eq_of_key (hs : s.Represents) {x y : α × ℤ} (hx : x ∈ s.cache.byTime)
    (hy : y ∈ s.cache.byTime) (h : Hopped.key x.1 = Hopped.key y.1) : x = y :=
  List.inj_on_of_nodup_map hs.nodup hx hy h

/-- Where one key at most was inserted, the searches can land on one place
only. -/
theorem single_iff (hs : s.Represents) : s.Single t ↔
    upperBound Prod.snd s.cache.byTime t ≤ lowerBound Prod.snd s.cache.byTime t + 1 := by
  constructor
  · intro h
    refine hs.sorted.upperBound_le_succ hs.nodup_byTime fun x hx y hy hxt hyt => ?_
    exact hs.eq_of_key hx hy (h _ _ (hxt ▸ hs.firstTime_of_mem hx) (hyt ▸ hs.firstTime_of_mem hy))
  · intro h k k' hk hk'
    obtain ⟨x, hx, rfl, hxt⟩ := hs.firstTime_eq_some.1 hk
    obtain ⟨y, hy, rfl, hyt⟩ := hs.firstTime_eq_some.1 hk'
    obtain ⟨i, hi⟩ := List.mem_iff_getElem?.1 hx
    obtain ⟨j, hj⟩ := List.mem_iff_getElem?.1 hy
    obtain ⟨hi₁, hi₂⟩ := (BinarySearch.Sorted.eq_iff hs.sorted hi t).1 hxt
    obtain ⟨hj₁, hj₂⟩ := (BinarySearch.Sorted.eq_iff hs.sorted hj t).1 hyt
    obtain rfl : i = j := by omega
    rw [hi] at hj
    cases hj
    rfl

/-- The record that was inserted first is the current one, where none has
fewer hops. -/
theorem get_of_kept (hs : s.Represents) {x : α × ℤ} (hx : x ∈ s.cache.byTime) :
    s.cache.get (Hopped.key x.1) = some x.1 ↔
      ∀ y ∈ s.since (Hopped.key x.1), Hopped.hop x.1 ≤ Hopped.hop y.1 := by
  rw [hs.record]
  constructor
  · intro h
    exact (fewest_eq_some h).2
  · intro h
    have hhead := (hs.first x).1 hx
    obtain ⟨l, hl⟩ := List.head?_eq_some_iff.1 hhead
    rw [hl] at h ⊢
    exact fewest_cons fun y hy => h y (List.mem_cons_of_mem _ hy)

end Represents

omit [Hopped α] in
/-- What a range query gives, once its searches have landed. -/
theorem iterRange_eq_some {c : ExpiringCache α} {landing : ℤ → ℕ} {start stop : ℤ} {out : List α} :
    c.iterRange landing start stop = some out ↔
      c.position landing start ≤ c.position landing stop ∧
        out = ((c.byTime.take (c.position landing stop)).drop (c.position landing start)).map
          Prod.fst := by
  unfold iterRange
  dsimp only
  split
  next hlt => exact iff_of_false (Option.some_ne_none _).symm fun h => Nat.not_le.2 hlt h.1
  next hle => rw [Option.some.injEq, eq_comm, and_iff_right (Nat.not_lt.1 hle)]

namespace Represents

variable {start stop : ℤ} {l : List (α × ℤ)}

/-- Entries that are as they should be are those of the range. -/
theorem mem_iff_of_lists (hs : s.Represents) (hsub : ∀ x ∈ l, x ∈ s.cache.byTime)
    (h : s.Lists start stop (l.map Prod.fst)) {x : α × ℤ} (hx : x ∈ s.cache.byTime) :
    x ∈ l ↔ start ≤ x.2 ∧ x.2 < stop := by
  have htime := hs.firstTime_of_mem hx
  constructor
  · intro hl
    obtain ⟨-, t, ht, hrange⟩ := (h.mem_iff x.1).1 (List.mem_map_of_mem hl)
    rw [htime, Option.some.injEq] at ht
    exact ht ▸ hrange
  · intro hrange
    -- the current record of the key is in the list, so its only entry is
    obtain ⟨r, hr⟩ := Option.isSome_iff_exists.1 (hs.mem_timed.1 (key_mem_timed hx))
    have hkey : Hopped.key r = Hopped.key x.1 := by
      rw [hs.record] at hr
      obtain ⟨y, hy, rfl⟩ := List.mem_map.1 (fewest_eq_some hr).1
      exact hs.keyed _ y hy
    have hmem := (h.mem_iff r).2 (by rw [hkey]; exact ⟨hr, x.2, htime, hrange⟩)
    obtain ⟨y, hy, rfl⟩ := List.mem_map.1 hmem
    exact hs.eq_of_key (hsub y hy) hx hkey ▸ hy

/-- The entries of a range give its records, where the first ones are the
current ones. -/
theorem lists_of_mem_iff (hs : s.Represents) (hl : l.Sublist s.cache.byTime)
    (hmem : ∀ x ∈ s.cache.byTime, x ∈ l ↔ start ≤ x.2 ∧ x.2 < stop)
    (hkept : ∀ x ∈ l, s.cache.get (Hopped.key x.1) = some x.1) :
    s.Lists start stop (l.map Prod.fst) := by
  refine ⟨?_, fun r => ⟨fun hr => ?_, fun hr => ?_⟩⟩
  · rw [List.map_map]
    exact hs.nodup.sublist (hl.map _)
  · obtain ⟨x, hx, rfl⟩ := List.mem_map.1 hr
    exact ⟨hkept x hx, x.2, hs.firstTime_of_mem (hl.subset hx), (hmem x (hl.subset hx)).1 hx⟩
  · obtain ⟨hget, t, ht, hrange⟩ := hr
    obtain ⟨x, hx, hkey, rfl⟩ := hs.firstTime_eq_some.1 ht
    have hxl := (hmem x hx).2 hrange
    have hsame := hkept x hxl
    rw [hkey, hget, Option.some.injEq] at hsame
    exact hsame ▸ List.mem_map_of_mem hxl

/-- The records of a range that is empty. -/
theorem lists_nil (h : stop ≤ start) : s.Lists start stop [] := by
  refine ⟨List.nodup_nil, fun r => iff_of_false List.not_mem_nil ?_⟩
  rintro ⟨-, t, -, hle, hlt⟩
  omega

/-- Where one key at most was inserted, every search lands on it. -/
theorem position_of_single (hs : s.Represents) (h : s.Single t) (landing : ℤ → ℕ) :
    s.cache.position landing t = lowerBound Prod.snd s.cache.byTime t :=
  BinarySearch.search_eq_lowerBound Prod.snd landing (hs.single_iff.1 h)

/-- In a range that is empty both searches land on one place. -/
theorem position_eq (hs : s.Represents) (h : s.Clear start stop) (hle : stop ≤ start)
    (landing : ℤ → ℕ) : s.cache.position landing stop = s.cache.position landing start := by
  rcases hle.eq_or_lt with rfl | hlt
  · rfl
  · obtain ⟨hsingle, hnone⟩ := h.wrong hlt
    have hupper := BinarySearch.search_le_upperBound Prod.snd landing s.cache.byTime stop
    have hlower := BinarySearch.lowerBound_le_search Prod.snd landing s.cache.byTime stop
    have hbounds := BinarySearch.upperBound_le_lowerBound Prod.snd s.cache.byTime hlt
    have hempty : lowerBound Prod.snd s.cache.byTime start ≤
        lowerBound Prod.snd s.cache.byTime stop :=
      BinarySearch.Sorted.lowerBound_le_lowerBound hs.sorted fun x hx =>
        hnone _ _ (hs.firstTime_of_mem hx)
    rw [hs.position_of_single hsingle]
    exact le_antisymm (hupper.trans hbounds) (hempty.trans hlower)

/-- Where the condition holds, a range query answers. -/
theorem answers (hs : s.Represents) (h : s.Clear start stop) : s.Answers start stop := by
  intro landing
  rcases lt_or_ge start stop with hlt | hge
  · -- both searches land on the lower bounds
    have hstart := hs.position_of_single (h.ends hlt).1 landing
    have hstop := hs.position_of_single (h.ends hlt).2 landing
    refine ⟨_, iterRange_eq_some.2 ⟨?_, rfl⟩, ?_⟩
    · exact BinarySearch.search_mono Prod.snd landing s.cache.byTime hlt.le
    · rw [hstart, hstop]
      refine hs.lists_of_mem_iff ((List.drop_sublist _ _).trans (List.take_sublist _ _))
        (fun x hx => ?_) fun x hx => ?_
      · rw [BinarySearch.Sorted.mem_slice_lowerBound hs.sorted, and_iff_right hx]
      · obtain ⟨hmem, hrange⟩ := (BinarySearch.Sorted.mem_slice_lowerBound hs.sorted).1 hx
        rw [hs.get_of_kept hmem]
        exact h.kept _ _ (hs.firstTime_of_mem hmem) hrange.1 hrange.2 x ((hs.first x).1 hmem)
  · have hsame := hs.position_eq h hge landing
    refine ⟨_, iterRange_eq_some.2 ⟨hsame.ge, rfl⟩, ?_⟩
    rw [hsame, List.drop_eq_nil_of_le (List.length_take_le _ _)]
    exact lists_nil hge

/-! ### What a range query that answers says -/

/-- Where more keys were inserted at some time, a search may land behind
the first of them. -/
theorem exists_behind_first (hs : s.Represents) (hne : ¬ s.Single t) :
    ∃ landing x, s.cache.byTime[lowerBound Prod.snd s.cache.byTime t]? = some x ∧ x.2 = t ∧
      s.cache.position landing t = lowerBound Prod.snd s.cache.byTime t + 1 := by
  rw [hs.single_iff, Nat.not_le] at hne
  obtain ⟨landing, hlanding⟩ := BinarySearch.exists_landing Prod.snd (Nat.le_succ _) hne
  have hlength := BinarySearch.upperBound_le_length Prod.snd s.cache.byTime t
  obtain ⟨x, hx⟩ : ∃ x, s.cache.byTime[lowerBound Prod.snd s.cache.byTime t]? = some x :=
    ⟨_, List.getElem?_eq_getElem (by omega)⟩
  exact ⟨landing, x, hx, (BinarySearch.Sorted.eq_iff hs.sorted hx t).2 ⟨le_refl _, by omega⟩,
    hlanding⟩

section Answers

variable (hs : s.Represents) (h : s.Answers start stop)
include h

/-- No search for the end of a range lands before one for its start. -/
theorem position_le (landing : ℤ → ℕ) :
    s.cache.position landing start ≤ s.cache.position landing stop := by
  obtain ⟨out, hout, -⟩ := h landing
  exact (iterRange_eq_some.1 hout).1

include hs

/-- Which entries are between the two searches. -/
theorem mem_between (landing : ℤ → ℕ) {i : ℕ} {x : α × ℤ} (hx : s.cache.byTime[i]? = some x) :
    (s.cache.position landing start ≤ i ∧ i < s.cache.position landing stop) ↔
      start ≤ x.2 ∧ x.2 < stop := by
  obtain ⟨out, hout, hlists⟩ := h landing
  obtain ⟨-, rfl⟩ := iterRange_eq_some.1 hout
  rw [← hs.mem_iff_of_lists (fun x hx => List.mem_of_mem_take (List.mem_of_mem_drop hx)) hlists
    (List.mem_of_getElem? hx), BinarySearch.mem_slice]
  constructor
  · rintro ⟨hle, hlt⟩
    exact ⟨i, hle, hlt, hx⟩
  · rintro ⟨j, hle, hlt, hj⟩
    obtain ⟨hlength, -⟩ := List.getElem?_eq_some_iff.1 hx
    obtain rfl : i = j := (List.getElem?_inj hlength hs.nodup_byTime).1 (hx.trans hj.symm)
    exact ⟨hle, hlt⟩

/-- At the ends of a range that is not empty one key at most was inserted:
behind the first one, the search for the start misses it and the search for
the end adds it. -/
theorem single_ends (hlt : start < stop) : s.Single start ∧ s.Single stop := by
  constructor
  · by_contra hne
    obtain ⟨landing, x, hx, rfl, hlanding⟩ := hs.exists_behind_first hne
    have hmem := (hs.mem_between h landing hx).2 ⟨le_refl _, hlt⟩
    omega
  · by_contra hne
    obtain ⟨landing, x, hx, rfl, hlanding⟩ := hs.exists_behind_first hne
    have hstart : s.cache.position landing start ≤ lowerBound Prod.snd s.cache.byTime x.2 :=
      (BinarySearch.search_le_upperBound Prod.snd landing s.cache.byTime start).trans
        (BinarySearch.upperBound_le_lowerBound Prod.snd s.cache.byTime hlt)
    have hrange := (hs.mem_between h landing hx).1 ⟨hstart, by omega⟩
    exact absurd hrange.2 (lt_irrefl _)

/-- The first records of a range are the current ones. -/
theorem kept (k : UInt64) (t : ℤ) (ht : s.firstTime k = some t) (hstart : start ≤ t)
    (hstop : t < stop) (first : α × ℤ) (hfirst : first ∈ (s.since k).head?) :
    ∀ x ∈ s.since k, Hopped.hop first.1 ≤ Hopped.hop x.1 := by
  obtain ⟨x, hx, rfl, rfl⟩ := hs.firstTime_eq_some.1 ht
  obtain rfl : x = first := Option.some.inj (((hs.first x).1 hx).symm.trans hfirst)
  obtain ⟨out, hout, hlists⟩ := h fun _ => 0
  obtain ⟨-, rfl⟩ := iterRange_eq_some.1 hout
  have hmem := (hs.mem_iff_of_lists
    (fun x hx => List.mem_of_mem_take (List.mem_of_mem_drop hx)) hlists hx).2 ⟨hstart, hstop⟩
  exact (hs.get_of_kept hx).1 ((hlists.mem_iff x.1).1 (List.mem_map_of_mem hmem)).1

/-- In a range that is the wrong way round there is no key. -/
theorem wrong (hlt : stop < start) :
    s.Single start ∧ ∀ k t, s.firstTime k = some t → ¬ (stop ≤ t ∧ t < start) := by
  have hbounds := BinarySearch.upperBound_le_lowerBound Prod.snd s.cache.byTime hlt
  constructor
  · by_contra hne
    obtain ⟨landing, x, hx, rfl, hlanding⟩ := hs.exists_behind_first hne
    have hle := position_le h landing
    have hstop : s.cache.position landing stop ≤ lowerBound Prod.snd s.cache.byTime x.2 :=
      (BinarySearch.search_le_upperBound Prod.snd landing s.cache.byTime stop).trans hbounds
    omega
  · rintro k t ht ⟨hstop, hstart⟩
    obtain ⟨x, hx, rfl, rfl⟩ := hs.firstTime_eq_some.1 ht
    obtain ⟨i, hi⟩ := List.mem_iff_getElem?.1 hx
    have hlower := (BinarySearch.Sorted.lt_lowerBound_iff hs.sorted hi stop).not.2 (not_lt.2 hstop)
    have hupper := (BinarySearch.Sorted.lt_lowerBound_iff hs.sorted hi start).2 hstart
    have hle := position_le h fun _ => 0
    have hge := BinarySearch.lowerBound_le_search Prod.snd (fun _ => 0) s.cache.byTime start
    have hsearch := BinarySearch.search_lt Prod.snd (fun _ => 0) s.cache.byTime stop
    unfold position at hle
    omega

end Answers

end Represents

/-- **When a range query answers**: in every run whose clock does not go
back, exactly where it is clear what it asks for. -/
theorem answers_iff (ops : List (Op α)) (hclock : (ops.filterMap Op.clock).Pairwise (· ≤ ·))
    (start stop : ℤ) : (run ops).Answers start stop ↔ (run ops).Clear start stop := by
  obtain ⟨hs, -⟩ := represents_run hclock
  constructor
  · intro h
    exact ⟨hs.single_ends h, hs.kept h, hs.wrong h⟩
  · intro h
    exact hs.answers h

/-- Two keys, the second one where the range stops; the first is inserted
again over a longer path. -/
def longerAgain : List (Op (MessageInfo Unit)) :=
  [.insert ⟨7, 2, ()⟩ 0, .insert ⟨8, 1, ()⟩ 3, .insert ⟨7, 5, ()⟩ 4]

theorem answers_longerAgain : (run longerAgain).Answers 0 3 := by
  have hfirst : ∀ k t, (run longerAgain).firstTime k = some t →
      (k = 7 ∧ t = 0) ∨ (k = 8 ∧ t = 3) := by
    intro k t ht
    by_cases h7 : k = 7
    · subst h7
      exact .inl ⟨rfl, (Option.some.inj ht).symm⟩
    · by_cases h8 : k = 8
      · subst h8
        exact .inr ⟨rfl, (Option.some.inj ht).symm⟩
      · simp [firstTime, run, longerAgain, step, Hopped.key, h7, h8] at ht
  refine (answers_iff longerAgain (by decide) 0 3).2 ⟨fun _ => ⟨?_, ?_⟩, ?_, nofun⟩
  · intro k k' hk hk'
    rcases hfirst k 0 hk with ⟨rfl, -⟩ | ⟨-, h⟩
    · rcases hfirst k' 0 hk' with ⟨rfl, -⟩ | ⟨-, h⟩
      · rfl
      · cases h
    · cases h
  · intro k k' hk hk'
    rcases hfirst k 3 hk with ⟨-, h⟩ | ⟨rfl, -⟩
    · cases h
    · rcases hfirst k' 3 hk' with ⟨-, h⟩ | ⟨rfl, -⟩
      · cases h
      · rfl
  · intro k t ht _ hstop first hmem x hx
    rcases hfirst k t ht with ⟨rfl, -⟩ | ⟨-, rfl⟩
    · cases hmem
      rcases List.mem_cons.1 hx with rfl | hx
      · decide
      · rw [List.mem_singleton.1 hx]
        decide
    · exact absurd hstop (lt_irrefl _)

/-- An old record is given where a better one replaced it, of two keys of
one time the second one may be all that is found, and a range that is the
wrong way round panics. -/
theorem range_astray :
    ¬ (run [.insert (⟨7, 5, 1⟩ : MessageInfo ℕ) 0, .insert ⟨7, 2, 2⟩ 1]).Answers 0 1 ∧
    ¬ (run [.insert (⟨7, 5, 1⟩ : MessageInfo ℕ) 0, .insert ⟨8, 5, 1⟩ 0]).Answers 0 1 ∧
    ¬ (run [.insert (⟨7, 5, 1⟩ : MessageInfo ℕ) 0]).Answers 1 0 := by
  refine ⟨fun h => ?_, fun h => ?_, fun h => ?_⟩
  · obtain ⟨out, hout, hlists⟩ := h fun _ => 0
    obtain rfl : [⟨7, 5, 1⟩] = out := Option.some.inj hout
    have hget := ((hlists.mem_iff _).1 (List.mem_singleton_self _)).1
    cases hget
  · obtain ⟨out, hout, hlists⟩ := h fun _ => 1
    obtain rfl : [⟨8, 5, 1⟩] = out := Option.some.inj hout
    have hmem := (hlists.mem_iff ⟨7, 5, 1⟩).2 ⟨rfl, 0, rfl, le_refl _, Int.one_pos⟩
    cases List.mem_singleton.1 hmem
  · obtain ⟨out, hout, -⟩ := h fun _ => 0
    cases hout

end Session

end ExpiringCache

end Network

end Rensa
