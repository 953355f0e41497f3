import Rensa.Common.InStep
import Rensa.Rpc.Accounts
/-!
# The nonces of a posted batch

`serve_send_transactions` expects of each payer the nonces that follow the
one in the state, and it expects the next one after every transaction that
passed the other checks, also after one it refused for its nonce. What it
forwards of a payer is a run of consecutive nonces, and nothing that would
continue the run is left out, exactly where the payer's nonces are in step
with what is expected (`executable_iff`).
-/

namespace Rensa

namespace Rpc

namespace ServiceSharedState

variable {H : Type} {s : ServiceSharedState H} {C : Crypto H} {fuel : ℕ} {n : Pubkey → ℕ}
variable {payer : Pubkey} {tx : Transaction} {pre txs : List Transaction} {b b' : Batch H}

/-- The nonces after `n`, as a `u64` counts. -/
def nonceAfter (n i : ℕ) : ℕ := (n + 1 + i) % 2 ^ 64

theorem nonceAfter_inj {m N i j : ℕ} (hN : N < 2 ^ 64) (hi : i < N) (hj : j < N)
    (h : nonceAfter m i = nonceAfter m j) : i = j := by
  unfold nonceAfter at h
  omega

theorem nonceAfter_succ (m i : ℕ) : (nonceAfter m i + 1) % 2 ^ 64 = nonceAfter m (i + 1) := by
  unfold nonceAfter
  omega

variable (s C) in
/-- The transaction passes the checks of its limits and signatures. -/
def Checked (tx : Transaction) : Prop :=
  tx.verifyLimits s.limits = .ok () ∧ tx.verifySignatures C = .ok ()

instance : DecidablePred (s.Checked C) := fun tx =>
  inferInstanceAs (Decidable (tx.verifyLimits s.limits = .ok () ∧ tx.verifySignatures C = .ok ()))

variable (s C) in
/-- The nonces of the checked transactions of a payer. -/
def nonces (payer : Pubkey) (txs : List Transaction) : List ℕ :=
  (txs.filter fun tx => s.Checked C tx ∧ tx.payer = payer).map Transaction.nonce

theorem nonces_append (txs' : List Transaction) :
    s.nonces C payer (txs ++ txs') = s.nonces C payer txs ++ s.nonces C payer txs' := by
  rw [nonces, List.filter_append, List.map_append, nonces, nonces]

theorem nonces_concat : s.nonces C payer (txs ++ [tx]) =
    if s.Checked C tx ∧ tx.payer = payer then s.nonces C payer txs ++ [tx.nonce]
    else s.nonces C payer txs := by
  rw [nonces_append]
  by_cases h : s.Checked C tx ∧ tx.payer = payer
  · simp [nonces, h]
  · simp [nonces, h]

/-- The transaction behind a nonce. -/
theorem nonces_split {i m : ℕ} (h : (s.nonces C payer txs)[i]? = some m) :
    ∃ pre tx post, txs = pre ++ tx :: post ∧ s.Checked C tx ∧ tx.payer = payer ∧
      tx.nonce = m ∧ (s.nonces C payer pre).length = i := by
  induction txs using List.reverseRecOn with
  | nil => simp [nonces] at h
  | append_singleton txs last ih =>
    have hinit : (s.nonces C payer txs)[i]? = some m → ∃ pre tx post,
        txs ++ [last] = pre ++ tx :: post ∧ s.Checked C tx ∧ tx.payer = payer ∧
          tx.nonce = m ∧ (s.nonces C payer pre).length = i := by
      intro hi
      obtain ⟨pre, tx, post, rfl, hrest⟩ := ih hi
      exact ⟨pre, tx, post ++ [last], by simp, hrest⟩
    rw [nonces_concat] at h
    split at h
    case isFalse => exact hinit h
    case isTrue hlast =>
      rcases Nat.lt_trichotomy i (s.nonces C payer txs).length with hlt | rfl | hgt
      · rw [List.getElem?_append_left hlt] at h
        exact hinit h
      · rw [List.getElem?_concat_length] at h
        exact ⟨txs, last, [], rfl, hlast.1, hlast.2, Option.some.inj h, rfl⟩
      · have hlt := (List.getElem?_eq_some_iff.1 h).1
        rw [List.length_append, List.length_singleton] at hlt
        omega

/-! ## The loop -/

variable (s C fuel n) in
/-- What holds after some transactions: lookups have ended for the payers
seen, the map has the nonces expected last, and what was sent of a payer
was expected at its position. -/
structure After (pre : List Transaction) (b : Batch H) : Prop where
  ended : ∀ p, s.nonces C p pre ≠ [] → s.accountNonce fuel p = some (n p)
  known : ∀ p, b.nonces p =
    (List.range (s.nonces C p pre).length).getLast?.map (nonceAfter (n p))
  sent : ∀ p, (b.sent.filter fun tx => tx.payer = p).map Transaction.nonce =
    kept (nonceAfter (n p)) (s.nonces C p pre)

theorem After.empty : s.After C fuel n [] {} where
  ended _ h := absurd rfl h
  known _ := rfl
  sent _ := rfl

/-- The next nonce that is expected of a payer. -/
theorem After.expectedNonce (h : s.After C fuel n pre b)
    (hnonce : s.accountNonce fuel payer = some (n payer)) :
    s.expectedNonce fuel b payer =
      some (nonceAfter (n payer) (s.nonces C payer pre).length) := by
  unfold ServiceSharedState.expectedNonce
  rw [h.known payer]
  cases hlen : (s.nonces C payer pre).length with
  | zero =>
    simp only [List.range_zero, List.getLast?_nil, Option.map_none, hnonce, Option.map_some]
    rfl
  | succ i =>
    simp only [List.range_succ, List.getLast?_concat, Option.map_some, nonceAfter_succ]

/-- A nonce is expected only where the lookup has ended. -/
theorem After.accountNonce (hn : ∀ p m, s.accountNonce fuel p = some m → m = n p)
    (h : s.After C fuel n pre b) {expected : ℕ}
    (hexp : s.expectedNonce fuel b payer = some expected) :
    s.accountNonce fuel payer = some (n payer) := by
  by_cases hnil : s.nonces C payer pre = []
  · have hnone : b.nonces payer = none := by
      rw [h.known payer, hnil]
      rfl
    unfold ServiceSharedState.expectedNonce at hexp
    rw [hnone] at hexp
    obtain ⟨m, hm, -⟩ := Option.map_eq_some_iff.1 hexp
    rw [hm, hn payer m hm]
  · exact h.ended payer hnil

/-- A transaction that fails a check is answered, and that is all. -/
theorem serve_of_not_checked (fuel : ℕ) (b : Batch H) (h : ¬ s.Checked C tx) : ∃ reply,
    s.serveTransaction C fuel b tx =
      .ok { b with outputs := b.outputs ++ [(tx.hash C, reply)] } := by
  unfold serveTransaction
  cases hlimits : tx.verifyLimits s.limits with
  | error e => exact ⟨_, rfl⟩
  | ok u =>
    cases hsig : tx.verifySignatures C with
    | error e => exact ⟨_, rfl⟩
    | ok u' => exact absurd ⟨hlimits, hsig⟩ h

/-- A transaction that passes the checks is sent where its nonce is the
expected one. -/
theorem serve_of_checked (hopen : ∀ i, s.sender i = true) (h : s.Checked C tx) {expected : ℕ}
    (hexp : s.expectedNonce fuel b tx.payer = some expected) : ∃ reply,
    s.serveTransaction C fuel b tx = .ok
      { outputs := b.outputs ++ [(tx.hash C, reply)]
        nonces := Function.update b.nonces tx.payer (some expected)
        sent := if tx.nonce = expected then b.sent ++ [tx] else b.sent } := by
  simp only [serveTransaction, h.1, h.2, hexp, hopen, if_true]
  by_cases hne : tx.nonce = expected
  · exact ⟨.ok, by simp [hne]⟩
  · exact ⟨.invalidNonce expected tx.nonce, by simp [hne]⟩

/-- The handler goes on after a transaction exactly where the lookup it
needs has ended. -/
theorem After.serve_ok_iff (hopen : ∀ i, s.sender i = true)
    (hn : ∀ p m, s.accountNonce fuel p = some m → m = n p) (h : s.After C fuel n pre b) :
    (∃ b', s.serveTransaction C fuel b tx = .ok b') ↔
      (s.Checked C tx → s.accountNonce fuel tx.payer = some (n tx.payer)) := by
  constructor
  · rintro ⟨b', hb'⟩ hchecked
    cases hexp : s.expectedNonce fuel b tx.payer with
    | none => simp [ServiceSharedState.serveTransaction, hchecked.1, hchecked.2, hexp] at hb'
    | some expected => exact h.accountNonce hn hexp
  · intro hnonce
    by_cases hchecked : s.Checked C tx
    · obtain ⟨reply, hserve⟩ :=
        serve_of_checked hopen hchecked (h.expectedNonce (hnonce hchecked))
      exact ⟨_, hserve⟩
    · obtain ⟨reply, hserve⟩ := serve_of_not_checked fuel b hchecked
      exact ⟨_, hserve⟩

/-- **One transaction**: it is sent where it passes the checks and has the
nonce of its position. -/
theorem After.serve (hopen : ∀ i, s.sender i = true)
    (hn : ∀ p m, s.accountNonce fuel p = some m → m = n p) (h : s.After C fuel n pre b)
    (hb' : s.serveTransaction C fuel b tx = .ok b') :
    s.After C fuel n (pre ++ [tx]) b' ∧
      b'.sent = if s.Checked C tx ∧
        tx.nonce = nonceAfter (n tx.payer) (s.nonces C tx.payer pre).length
        then b.sent ++ [tx] else b.sent := by
  by_cases hchecked : s.Checked C tx
  case neg =>
    obtain ⟨reply, hserve⟩ := serve_of_not_checked fuel b hchecked
    rw [hb', Except.ok.injEq] at hserve
    have hsame : ∀ p, s.nonces C p (pre ++ [tx]) = s.nonces C p pre := fun p => by
      rw [nonces_concat, if_neg fun hp => hchecked hp.1]
    rw [if_neg fun hp => hchecked hp.1, hserve]
    refine ⟨⟨fun p => ?_, fun p => ?_, fun p => ?_⟩, rfl⟩
    · rw [hsame p]
      exact h.ended p
    · rw [hsame p]
      exact h.known p
    · rw [hsame p]
      exact h.sent p
  case pos =>
    have hnonce := (h.serve_ok_iff hopen hn).1 ⟨b', hb'⟩ hchecked
    obtain ⟨reply, hserve⟩ := serve_of_checked hopen hchecked (h.expectedNonce hnonce)
    rw [hb', Except.ok.injEq] at hserve
    have hown : s.nonces C tx.payer (pre ++ [tx]) = s.nonces C tx.payer pre ++ [tx.nonce] := by
      rw [nonces_concat, if_pos ⟨hchecked, rfl⟩]
    -- the position of the payer moves on whether or not the nonce is right
    have hother : ∀ p, p ≠ tx.payer → s.nonces C p (pre ++ [tx]) = s.nonces C p pre :=
      fun p hp => by rw [nonces_concat, if_neg fun h => hp h.2.symm]
    have hsent : b'.sent = if s.Checked C tx ∧
        tx.nonce = nonceAfter (n tx.payer) (s.nonces C tx.payer pre).length
        then b.sent ++ [tx] else b.sent := by
      rw [hserve]
      simp only [hchecked, true_and]
    refine ⟨⟨fun p hp => ?_, fun p => ?_, fun p => ?_⟩, hsent⟩
    · by_cases heq : p = tx.payer
      · rw [heq, hnonce]
      · rw [hother p heq] at hp
        exact h.ended p hp
    · by_cases heq : p = tx.payer
      · rw [heq, hown, hserve]
        simp [List.range_succ]
      · rw [hother p heq, ← h.known p, hserve]
        simp [heq]
    · rw [hsent]
      by_cases heq : p = tx.payer
      · rw [heq, hown, kept_concat, ← h.sent]
        split <;> rename_i hexp
        · rw [if_pos hexp.2, List.filter_append, List.map_append]
          simp
        · rw [if_neg fun hnext => hexp ⟨hchecked, hnext⟩]
      · rw [hother p heq, ← h.sent]
        split
        · rw [List.filter_append, List.map_append]
          simp [Ne.symm heq]
        · rfl

theorem foldlM_concat_eq_ok {ε σ α : Type} {f : σ → α → Except ε σ} {l : List α} {a : α}
    {x z : σ} : (l ++ [a]).foldlM f x = .ok z ↔ ∃ y, l.foldlM f x = .ok y ∧ f y a = .ok z := by
  rw [List.foldlM_append]
  cases l.foldlM f x with
  | error e => exact ⟨nofun, nofun⟩
  | ok y => cases hfy : f y a <;> simp [hfy, bind, Except.bind, pure, Except.pure]

/-- **A whole batch**, where the handler gets through it. -/
theorem after_foldlM (hopen : ∀ i, s.sender i = true)
    (hn : ∀ p m, s.accountNonce fuel p = some m → m = n p)
    (hb : txs.foldlM (s.serveTransaction C fuel) {} = .ok b) : s.After C fuel n txs b := by
  induction txs using List.reverseRecOn generalizing b with
  | nil =>
    obtain rfl : ({} : Batch H) = b := Except.ok.inj hb
    exact .empty
  | append_singleton txs tx ih =>
    obtain ⟨a, ha, hserve⟩ := foldlM_concat_eq_ok.1 hb
    exact ((ih ha).serve hopen hn hserve).1

/-- The handler gets through a batch where the lookups end. -/
theorem foldlM_serve_ok (hopen : ∀ i, s.sender i = true)
    (hn : ∀ p m, s.accountNonce fuel p = some m → m = n p)
    (hends : ∀ tx ∈ txs, s.Checked C tx → s.accountNonce fuel tx.payer = some (n tx.payer)) :
    ∃ b, txs.foldlM (s.serveTransaction C fuel) {} = .ok b := by
  induction txs using List.reverseRecOn with
  | nil => exact ⟨{}, rfl⟩
  | append_singleton txs tx ih =>
    obtain ⟨a, ha⟩ := ih fun t ht => hends t (List.mem_append_left _ ht)
    have hafter := after_foldlM hopen hn ha
    obtain ⟨b, hb⟩ := (hafter.serve_ok_iff hopen hn).2 (hends tx (by simp))
    exact ⟨b, foldlM_concat_eq_ok.2 ⟨a, ha, hb⟩⟩

/-! ## The result -/

variable (s C) in
/-- What the handler forwards to the node. -/
def forwarded (fuel : ℕ) (txs : List Transaction) : List Transaction :=
  ((s.serveSendTransactions C fuel txs).map Prod.snd).getD []

variable (s C n) in
/-- **Only executable sequences of nonces are admitted.** The handler
answers; what it forwards of a payer has the nonces after the payer's own,
without gaps; and a transaction that passes the checks and has the nonce
after those forwarded of its payer is forwarded. -/
structure Executable (fuel : ℕ) (posted : List Transaction) : Prop where
  returns : ∃ outputs, s.serveSendTransactions C fuel posted =
    some (.accepted outputs, s.forwarded C fuel posted)
  sequence : ∀ p,
    ((s.forwarded C fuel posted).filter fun tx => tx.payer = p).map Transaction.nonce =
      (List.range ((s.forwarded C fuel posted).filter fun tx => tx.payer = p).length).map
        (nonceAfter (n p))
  complete : ∀ pre tx post, posted = pre ++ tx :: post → s.Checked C tx →
    tx.nonce = nonceAfter (n tx.payer)
      ((s.forwarded C fuel pre).filter fun t => t.payer = tx.payer).length →
    s.forwarded C fuel (pre ++ [tx]) = s.forwarded C fuel pre ++ [tx]

theorem forwarded_eq (hb : txs.foldlM (s.serveTransaction C fuel) {} = .ok b) :
    s.forwarded C fuel txs = b.sent := by
  simp [forwarded, serveSendTransactions, hb]

/-- An accepted batch went through the loop to its end. -/
theorem foldlM_of_accepted {outputs : List (H × String)} {sent : List Transaction}
    (h : s.serveSendTransactions C fuel txs = some (.accepted outputs, sent)) :
    ∃ b, txs.foldlM (s.serveTransaction C fuel) {} = .ok b := by
  unfold serveSendTransactions at h
  cases hfold : txs.foldlM (s.serveTransaction C fuel) {} with
  | ok b => exact ⟨b, rfl⟩
  | error stop => cases stop <;> simp [hfold] at h

section

variable (hopen : ∀ i, s.sender i = true) (hn : ∀ p m, s.accountNonce fuel p = some m → m = n p)

include hopen hn

/-- An accepted batch: the lookups of its payers have ended. -/
theorem Executable.ended (h : s.Executable C n fuel txs) :
    ∀ tx ∈ txs, s.Checked C tx → s.accountNonce fuel tx.payer = some (n tx.payer) := by
  intro tx htx hchecked
  obtain ⟨outputs, hout⟩ := h.returns
  obtain ⟨b, hb⟩ := foldlM_of_accepted hout
  refine (after_foldlM hopen hn hb).ended tx.payer (List.ne_nil_of_mem (a := tx.nonce) ?_)
  exact List.mem_map_of_mem (List.mem_filter.2 ⟨htx, by simp [hchecked]⟩)

/-- What is forwarded of a payer are the nonces that are expected where
they are. -/
theorem nonces_forwarded
    (hends : ∀ tx ∈ txs, s.Checked C tx → s.accountNonce fuel tx.payer = some (n tx.payer))
    (p : Pubkey) :
    ((s.forwarded C fuel txs).filter fun tx => tx.payer = p).map Transaction.nonce =
      kept (nonceAfter (n p)) (s.nonces C p txs) := by
  obtain ⟨b, hb⟩ := foldlM_serve_ok hopen hn hends
  rw [forwarded_eq hb]
  exact (after_foldlM hopen hn hb).sent p

/-- The number of transactions forwarded of a payer before a position. -/
theorem length_forwarded
    (hends : ∀ tx ∈ txs, s.Checked C tx → s.accountNonce fuel tx.payer = some (n tx.payer))
    (p : Pubkey) (rest : List Transaction) :
    ((s.forwarded C fuel txs).filter fun tx => tx.payer = p).length =
      Nat.count (Hit (nonceAfter (n p)) (s.nonces C p (txs ++ rest)))
        (s.nonces C p txs).length := by
  rw [nonces_append, count_hit_append, ← nonces_forwarded hopen hn hends, List.length_map]

/-- The last transaction is forwarded where it has the nonce of its
position. -/
theorem forwarded_concat (hends : ∀ t ∈ txs ++ [tx], s.Checked C t →
      s.accountNonce fuel t.payer = some (n t.payer)) (hchecked : s.Checked C tx) :
    s.forwarded C fuel (txs ++ [tx]) = s.forwarded C fuel txs ++ [tx] ↔
      tx.nonce = nonceAfter (n tx.payer) (s.nonces C tx.payer txs).length := by
  obtain ⟨c, hc⟩ := foldlM_serve_ok hopen hn hends
  obtain ⟨a, ha, hserve⟩ := foldlM_concat_eq_ok.1 hc
  rw [forwarded_eq hc, forwarded_eq ha, ((after_foldlM hopen hn ha).serve hopen hn hserve).2]
  by_cases hexp : tx.nonce = nonceAfter (n tx.payer) (s.nonces C tx.payer txs).length
  · simp [hchecked, hexp]
  · simp [hexp]

/-- **Each next transaction is forwarded** exactly where each next nonce is
expected where it is. -/
theorem complete_iff {posted : List Transaction}
    (hends : ∀ tx ∈ posted, s.Checked C tx → s.accountNonce fuel tx.payer = some (n tx.payer)) :
    (∀ pre tx post, posted = pre ++ tx :: post → s.Checked C tx →
      tx.nonce = nonceAfter (n tx.payer)
        ((s.forwarded C fuel pre).filter fun t => t.payer = tx.payer).length →
      s.forwarded C fuel (pre ++ [tx]) = s.forwarded C fuel pre ++ [tx]) ↔
    ∀ p i, (s.nonces C p posted)[i]? =
        some (nonceAfter (n p) (Nat.count (Hit (nonceAfter (n p)) (s.nonces C p posted)) i)) →
      Hit (nonceAfter (n p)) (s.nonces C p posted) i := by
  have hbefore : ∀ {pre tx post}, posted = pre ++ tx :: post →
      ∀ t ∈ pre ++ [tx], s.Checked C t → s.accountNonce fuel t.payer = some (n t.payer) := by
    rintro pre tx post rfl t ht
    refine hends t (List.mem_append.2 ((List.mem_append.1 ht).imp_right fun ht => ?_))
    rw [List.mem_singleton.1 ht]
    exact List.mem_cons_self
  constructor
  · intro hcomplete p i hi
    obtain ⟨pre, tx, post, hsplit, hchecked, rfl, hnonce, rfl⟩ := nonces_split hi
    have hpre := fun t ht => hbefore hsplit t (List.mem_append_left _ ht)
    -- what was forwarded before the transaction is as many as the hits before it
    have hlen := length_forwarded hopen hn hpre tx.payer (tx :: post)
    rw [← hsplit] at hlen
    have hsent := hcomplete pre tx post hsplit hchecked (by rw [hlen]; exact hnonce)
    rw [Hit, hi, ← hnonce, (forwarded_concat hopen hn (hbefore hsplit) hchecked).1 hsent]
  · intro hhit pre tx post hsplit hchecked hnonce
    have hpre := fun t ht => hbefore hsplit t (List.mem_append_left _ ht)
    have hlen := length_forwarded hopen hn hpre tx.payer (tx :: post)
    rw [← hsplit] at hlen
    have hget : (s.nonces C tx.payer posted)[(s.nonces C tx.payer pre).length]? =
        some tx.nonce := by
      rw [hsplit, nonces_append, List.getElem?_append_right le_rfl, Nat.sub_self]
      simp [nonces, hchecked]
    have hexp := hhit tx.payer _ (hget.trans (by rw [hnonce, hlen]))
    rw [Hit, hget] at hexp
    exact (forwarded_concat hopen hn (hbefore hsplit) hchecked).2 (Option.some.inj hexp)

/-- **Where the lookups have ended**, only executable sequences are admitted
exactly where the nonces of each payer are in step. -/
theorem executable_iff_inStep {posted : List Transaction} (hlen : posted.length < 2 ^ 64)
    (hends : ∀ tx ∈ posted, s.Checked C tx → s.accountNonce fuel tx.payer = some (n tx.payer)) :
    s.Executable C n fuel posted ↔
      ∀ p, InStep (nonceAfter (n p)) (s.nonces C p posted) := by
  have hinj : ∀ p i j, i < (s.nonces C p posted).length → j < (s.nonces C p posted).length →
      nonceAfter (n p) i = nonceAfter (n p) j → i = j := by
    intro p i j
    have hle : (s.nonces C p posted).length ≤ posted.length := by
      rw [nonces, List.length_map]
      exact List.length_filter_le _ _
    exact nonceAfter_inj (lt_of_le_of_lt hle hlen)
  have hcomplete := complete_iff hopen hn hends
  constructor
  · intro h p
    refine (inStep_iff (hinj p)).1 ⟨?_, hcomplete.1 h.complete p⟩
    have hseq := h.sequence p
    rw [← List.length_map (f := Transaction.nonce), nonces_forwarded hopen hn hends] at hseq
    exact hseq
  · intro hstep
    obtain ⟨b, hb⟩ := foldlM_serve_ok hopen hn hends
    refine ⟨⟨_, by simp only [forwarded_eq hb, serveSendTransactions, hb]; rfl⟩, fun p => ?_,
      hcomplete.2 fun p => ((inStep_iff (hinj p)).2 (hstep p)).2⟩
    rw [← List.length_map (f := Transaction.nonce), nonces_forwarded hopen hn hends]
    exact ((inStep_iff (hinj p)).2 (hstep p)).1

end

/-- The nonce of a payer is found where the lookup of its account ends. -/
theorem accountNonce_eq_some_iff {m : ℕ} : s.accountNonce fuel payer = some m ↔
    ∃ r, s.getConfirmedAccount fuel payer = some r ∧
      ((r.or (s.state payer)).map Account.nonce).getD 0 = m := by
  rw [accountNonce, Option.map_eq_some_iff]

/-- **The nonces of a posted batch.** With the channel to the node open and
`n` the nonces of the payers in the confirmed or else the finalized state,
the handler admits executable sequences only, and all of them, exactly
where the lookups of the payers end and the nonces posted for each payer
are in step. -/
theorem executable_iff (C : Crypto H) (s : ServiceSharedState H)
    (hopen : ∀ i, s.sender i = true) (n : Pubkey → ℕ)
    (hn : ∀ fuel p m, s.accountNonce fuel p = some m → m = n p) (posted : List Transaction)
    (hlen : posted.length < 2 ^ 64) :
    (∃ fuel, s.Executable C n fuel posted) ↔
      (∀ tx ∈ posted, s.Checked C tx → s.blocks.Unbroken tx.payer) ∧
        ∀ p, InStep (nonceAfter (n p)) (s.nonces C p posted) := by
  constructor
  · rintro ⟨fuel, h⟩
    have hends := h.ended hopen (hn fuel)
    refine ⟨fun tx htx hchecked => ?_, (executable_iff_inStep hopen (hn fuel) hlen hends).1 h⟩
    obtain ⟨r, hr, -⟩ := accountNonce_eq_some_iff.1 (hends tx htx hchecked)
    exact unbroken_of_lookup hr
  · rintro ⟨hunbroken, hstep⟩
    have hends : ∀ tx ∈ posted, s.Checked C tx →
        s.accountNonce s.enough tx.payer = some (n tx.payer) := by
      intro tx htx hchecked
      obtain ⟨r, hr⟩ := lookup_of_unbroken (hunbroken tx htx hchecked)
      have hnonce := accountNonce_eq_some_iff.2 ⟨r, hr, rfl⟩
      rw [hnonce, hn _ _ _ hnonce]
    exact ⟨s.enough, (executable_iff_inStep hopen (hn _) hlen hends).2 hstep⟩

namespace Sample

/-- A service on an empty disk; account 1 has nonce 4. -/
def nonceService : ServiceSharedState Bytes where
  state := fun k => if k = 1 then some { nonce := 4 } else none
  blocks := { detailed := true, historyLen := 10 }
  limits := Machine.Sample.limits
  sender := fun _ => true

/-- The nonces in its state. -/
def inState (k : Pubkey) : ℕ := if k = 1 then 4 else 0

/-- A transaction account 1 pays for. -/
def pay (nonce : ℕ) : Transaction :=
  let tx : Transaction :=
    { contract := 200, nonce, payer := 1, accounts := [], params := [], signatures := [] }
  { tx with signatures := [Machine.Sample.sign 1 tx] }

theorem eq_inState (fuel : ℕ) (p : Pubkey) (m : ℕ)
    (h : nonceService.accountNonce fuel p = some m) : m = inState p := by
  have hnonce : nonceService.accountNonce fuel p =
      some (((nonceService.state p).map Account.nonce).getD 0) := rfl
  rw [hnonce, Option.some.injEq] at h
  rw [← h]
  by_cases hp : p = 1 <;> simp [nonceService, inState, hp]

/-- What a batch has to be like for account 1. -/
theorem inStep {fuel : ℕ} {posted : List Transaction}
    (h : nonceService.Executable sampleCrypto inState fuel posted)
    (hlen : posted.length < 2 ^ 64) :
    InStep (nonceAfter 4) (nonceService.nonces sampleCrypto 1 posted) := by
  have hends := h.ended (fun _ => rfl) (eq_inState fuel)
  exact (executable_iff_inStep (fun _ => rfl) (eq_inState fuel) hlen hends).1 h 1

theorem unbroken (account : Pubkey) : nonceService.blocks.Unbroken account :=
  fun _ _ hf => by cases hf

end Sample

/-- **A batch that leaves a hole, and one that stops too early.** With
nonce 4 in the state and 9 posted first, nonce 6 goes to the node without
nonce 5; and nonce 5 does not, although it is the next one. -/
theorem forwards_hole :
    (Sample.nonceService.forwarded sampleCrypto 0 [Sample.pay 9, Sample.pay 6] = [Sample.pay 6] ∧
      ¬ ∃ fuel, Sample.nonceService.Executable sampleCrypto Sample.inState fuel
        [Sample.pay 9, Sample.pay 6]) ∧
      Sample.nonceService.forwarded sampleCrypto 0 [Sample.pay 9, Sample.pay 5] = [] ∧
        ¬ ∃ fuel, Sample.nonceService.Executable sampleCrypto Sample.inState fuel
          [Sample.pay 9, Sample.pay 5] := by
  have hmiss : ∀ m, m = 5 ∨ m = 6 → ¬ InStep (nonceAfter 4) [9, m] := by
    intro m hm hstep
    obtain ⟨hhit, hne⟩ := hstep 0 (fun i hi => absurd hi (Nat.not_lt_zero i))
      (by simp [Hit, nonceAfter]) 1 (by omega)
    rcases hm with rfl | rfl
    · exact hne (by decide)
    · exact hhit (by decide)
  refine ⟨⟨by decide, ?_⟩, by decide, ?_⟩
  · rintro ⟨fuel, h⟩
    have hnonces : Sample.nonceService.nonces sampleCrypto 1 [Sample.pay 9, Sample.pay 6] =
      [9, 6] := by decide
    have hstep := Sample.inStep h (by decide)
    rw [hnonces] at hstep
    exact hmiss 6 (.inr rfl) hstep
  · rintro ⟨fuel, h⟩
    have hnonces : Sample.nonceService.nonces sampleCrypto 1 [Sample.pay 9, Sample.pay 5] =
      [9, 5] := by decide
    have hstep := Sample.inStep h (by decide)
    rw [hnonces] at hstep
    exact hmiss 5 (.inl rfl) hstep

/-- A batch whose last nonce is off: the two before it are forwarded. -/
theorem executable_batch :
    (∃ fuel, Sample.nonceService.Executable sampleCrypto Sample.inState fuel
      [Sample.pay 5, Sample.pay 6, Sample.pay 9]) ∧
      Sample.nonceService.forwarded sampleCrypto 0 [Sample.pay 5, Sample.pay 6, Sample.pay 9] =
        [Sample.pay 5, Sample.pay 6] := by
  refine ⟨(executable_iff sampleCrypto Sample.nonceService (fun _ => rfl) Sample.inState
    Sample.eq_inState _ (by decide)).2 ⟨fun tx _ _ => Sample.unbroken _, fun p => ?_⟩,
    by decide⟩
  intro k hbefore hmiss i hki
  by_cases hp : p = 1
  · have hnonces : Sample.nonceService.nonces sampleCrypto 1
        [Sample.pay 5, Sample.pay 6, Sample.pay 9] = [5, 6, 9] := by decide
    subst hp
    rw [hnonces] at hbefore hmiss ⊢
    have hk : k ≠ 0 ∧ k ≠ 1 := by
      constructor <;> rintro rfl <;> exact hmiss (by decide)
    rw [Hit, List.getElem?_eq_none (by simp; omega)]
    constructor <;> intro h <;> cases h
  · have hnil : Sample.nonceService.nonces sampleCrypto p
        [Sample.pay 5, Sample.pay 6, Sample.pay 9] = [] := by
      have hpayer : ∀ m, (Sample.pay m).payer ≠ p := fun m h => hp h.symm
      simp [nonces, hpayer]
    rw [hnil]
    constructor <;> intro h <;> cases h

end ServiceSharedState

end Rpc

end Rensa
