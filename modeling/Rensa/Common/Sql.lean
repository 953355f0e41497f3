import Rensa.Common.Numeral
/-!
# Reading SQL

A reader for the statements that put rows of values into tables. The lexer
goes through the characters once: a quoted literal ends at the first quote
that is not doubled, and everything else is words, symbols, blanks and
comments. Statements are written by `Statement.format`, which puts texts
between quotes as they are. They are read back as what was written exactly
where no text has a quote (`read_insert_iff`).
-/

namespace Rensa

namespace Sql

/-! ## The lexer -/

/-- A part of a statement. -/
inductive Token
  | word (cs : List Char)
  | literal (cs : List Char)
  | symbol (c : Char)
deriving DecidableEq

/-- The single quote. -/
def quote : Char := Char.ofNat 39

/-- The end of a line, and of a comment. -/
def newline : Char := Char.ofNat 10

/-- A character of a word. -/
def isWord (c : Char) : Bool := c.isAlphanum || c = '_'

/-- Where the lexer is: in a word or a literal that has begun, or after a
quote that may be the first one of two. -/
inductive Mode
  | gap
  | word (cs : List Char)
  | literal (cs : List Char)
  | closing (cs : List Char)
  | dash
  | comment

/-- A character that is not in the middle of something. -/
def Mode.start (c : Char) : Mode × List Token :=
  if c = quote then (.literal [], [])
  else if isWord c then (.word [c], [])
  else if c = ' ' ∨ c = newline then (.gap, [])
  else if c = '-' then (.dash, [])
  else (.gap, [.symbol c])

/-- A token ends before a character. -/
def Mode.emit (t : Token) (c : Char) : Mode × List Token := ((start c).1, t :: (start c).2)

/-- The next character: the mode after it, and the tokens that are
complete. -/
def Mode.next : Mode → Char → Mode × List Token
  | .gap, c => start c
  | .word cs, c => if isWord c then (.word (cs ++ [c]), []) else emit (.word cs) c
  | .literal cs, c => if c = quote then (.closing cs, []) else (.literal (cs ++ [c]), [])
  | .closing cs, c => if c = quote then (.literal (cs ++ [quote]), []) else emit (.literal cs) c
  | .dash, c => if c = '-' then (.comment, []) else emit (.symbol '-') c
  | .comment, c => (if c = newline then .gap else .comment, [])

/-- The end of the text: a literal has to be complete. -/
def Mode.finish : Mode → Option (List Token)
  | .gap | .comment => some []
  | .word cs => some [.word cs]
  | .literal _ => none
  | .closing cs => some [.literal cs]
  | .dash => some [.symbol '-']

/-- The tokens of a text, from some mode on. -/
def lex : Mode → List Char → Option (List Token)
  | m, [] => m.finish
  | m, c :: cs => (lex (m.next c).1 cs).map ((m.next c).2 ++ ·)

/-! ## The grammar -/

/-- A value of a row. -/
inductive Value
  | num (n : ℕ)
  | text (s : String)
  | null
deriving DecidableEq

/-- A statement: a new row of a table, or a new value in a column of the row
with some key. -/
inductive Statement
  | insert (table : String) (values : List Value)
  | update (table column : String) (value : Value) (keyColumn : String) (key : Value)
deriving DecidableEq

/-- The value a token is. -/
def Value.ofToken : Token → Option Value
  | .word cs => if cs = "NULL".toList then some .null else (readDecimal cs).map .num
  | .literal cs => some (.text (String.ofList cs))
  | .symbol _ => none

/-- Values with commas between them, up to the closing bracket. -/
def parseValues : List Token → Option (List Value)
  | [t, .symbol ')'] => (Value.ofToken t).map ([·])
  | t :: .symbol ',' :: ts =>
    (Value.ofToken t).bind fun v => (parseValues ts).map (v :: ·)
  | _ => none

/-- The statement that all of the tokens are. -/
def parse : List Token → Option Statement
  | .word insert :: .word into :: .word table :: .word values :: .symbol '(' :: ts =>
    if insert = "INSERT".toList ∧ into = "INTO".toList ∧ values = "VALUES".toList then
      (parseValues ts).map (.insert (String.ofList table))
    else none
  | [.word update, .word table, .word set, .word column, .symbol '=', value, .word where',
      .word keyColumn, .symbol '=', key] =>
    if update = "UPDATE".toList ∧ set = "SET".toList ∧ where' = "WHERE".toList then
      (Value.ofToken value).bind fun value => (Value.ofToken key).map fun key =>
        .update (String.ofList table) (String.ofList column) value (String.ofList keyColumn) key
    else none
  | _ => none

/-- The statement that a text is. -/
def read (sql : String) : Option Statement := (lex .gap sql.toList).bind parse

/-! ## Writing -/

/-- A value in a statement: a text is put between quotes as it is. -/
def Value.format : Value → List Char
  | .num n => decimal n
  | .text s => quote :: (s.toList ++ [quote])
  | .null => "NULL".toList

/-- Values with commas between them, and the closing bracket. -/
def formatValues : List Value → List Char
  | [] => [')']
  | [v] => v.format ++ [')']
  | v :: vs => v.format ++ ',' :: ' ' :: formatValues vs

/-- The text of a statement. -/
def Statement.format : Statement → String
  | .insert table values => String.ofList ("INSERT INTO ".toList ++ table.toList ++
      " VALUES (".toList ++ formatValues values)
  | .update table column value keyColumn key => String.ofList ("UPDATE ".toList ++ table.toList ++
      " SET ".toList ++ column.toList ++ " = ".toList ++ value.format ++
      " WHERE ".toList ++ keyColumn.toList ++ " = ".toList ++ key.format)

/-- A text without quotes. -/
def Value.Quoteless : Value → Prop
  | .text s => quote ∉ s.toList
  | _ => True

@[simp] theorem Value.quoteless_num (n : ℕ) : (num n).Quoteless := trivial

@[simp] theorem Value.quoteless_null : null.Quoteless := trivial

@[simp] theorem Value.quoteless_text {s : String} : (text s).Quoteless ↔ quote ∉ s.toList := Iff.rfl

/-! ## Lexing what was written -/

variable {c d : Char} {cs acc rest : List Char} {ts : List Token} {v : Value}

/-- A word or a literal ends before what follows. -/
def Stops (rest : List Char) : Prop := ∀ c ∈ rest.head?, c ≠ quote ∧ isWord c = false

theorem stops_cons (hquote : c ≠ quote) (hword : isWord c = false) : Stops (c :: rest) := by
  intro d hd
  obtain rfl : c = d := Option.some.inj hd
  exact ⟨hquote, hword⟩

theorem stops_nil : Stops [] := nofun

/-- A token that is complete, before what follows. -/
theorem lex_emit {m : Mode} {t : Token} (hfinish : m.finish = some [t])
    (hnext : ∀ c ∈ rest.head?, m.next c = Mode.emit t c) :
    lex m rest = (lex .gap rest).map (t :: ·) := by
  cases rest with
  | nil => exact hfinish
  | cons c rest =>
    have hc := hnext c rfl
    show (lex (m.next c).1 rest).map ((m.next c).2 ++ ·) =
      ((lex (Mode.start c).1 rest).map ((Mode.start c).2 ++ ·)).map (t :: ·)
    rw [hc, Option.map_map]
    rfl

/-- The rest of a word. -/
theorem lex_word (hcs : ∀ c ∈ cs, isWord c) (hrest : Stops rest) :
    lex (.word acc) (cs ++ rest) = (lex .gap rest).map (.word (acc ++ cs) :: ·) := by
  induction cs generalizing acc with
  | nil =>
    rw [List.append_nil]
    refine lex_emit rfl fun c hc => if_neg ?_
    rw [(hrest c hc).2]
    exact Bool.false_ne_true
  | cons c cs ih =>
    have hnext : Mode.next (.word acc) c = (.word (acc ++ [c]), []) :=
      if_pos (hcs c List.mem_cons_self)
    show (lex (Mode.next (.word acc) c).1 (cs ++ rest)).map ((Mode.next (.word acc) c).2 ++ ·) = _
    rw [hnext, ih fun c hc => hcs c (List.mem_cons_of_mem _ hc), List.append_assoc, Option.map_map]
    rfl

/-- A word. -/
theorem lex_gap_word (hne : cs ≠ []) (hcs : ∀ c ∈ cs, isWord c) (hrest : Stops rest) :
    lex .gap (cs ++ rest) = (lex .gap rest).map (.word cs :: ·) := by
  cases cs with
  | nil => exact absurd rfl hne
  | cons c cs =>
    have hword := hcs c List.mem_cons_self
    have hquote : c ≠ quote := by
      rintro rfl
      exact absurd hword (by decide)
    have hnext : Mode.next .gap c = (.word [c], []) := (if_neg hquote).trans (if_pos hword)
    show (lex (Mode.next .gap c).1 (cs ++ rest)).map ((Mode.next .gap c).2 ++ ·) = _
    rw [hnext, lex_word (fun c hc => hcs c (List.mem_cons_of_mem _ hc)) hrest, Option.map_map]
    rfl

/-- The rest of a literal without quotes. -/
theorem lex_literal (hcs : quote ∉ cs) (hrest : Stops rest) :
    lex (.literal acc) (cs ++ quote :: rest) =
      (lex .gap rest).map (.literal (acc ++ cs) :: ·) := by
  induction cs generalizing acc with
  | nil =>
    rw [List.append_nil]
    have hclosing : lex (.closing acc) rest = (lex .gap rest).map (.literal acc :: ·) :=
      lex_emit rfl fun c hc => if_neg (hrest c hc).1
    show (lex (.closing acc) rest).map ([] ++ ·) = _
    rw [hclosing, Option.map_map]
    rfl
  | cons c cs ih =>
    rw [List.mem_cons, not_or] at hcs
    have hnext : Mode.next (.literal acc) c = (.literal (acc ++ [c]), []) :=
      if_neg fun heq => hcs.1 heq.symm
    show (lex (Mode.next (.literal acc) c).1 (cs ++ quote :: rest)).map
      ((Mode.next (.literal acc) c).2 ++ ·) = _
    rw [hnext, ih hcs.2, List.append_assoc, Option.map_map]
    rfl

/-- A blank. -/
theorem lex_blank (rest : List Char) : lex .gap (' ' :: rest) = lex .gap rest := by
  show (lex .gap rest).map ([] ++ ·) = _
  exact congrFun Option.map_id (lex .gap rest)

/-- The token of a value without quotes. -/
def Value.token : Value → Token
  | .num n => .word (decimal n)
  | .text s => .literal s.toList
  | .null => .word "NULL".toList

theorem Value.ofToken_token (v : Value) : Value.ofToken v.token = some v := by
  cases v with
  | num n =>
    have hne : decimal n ≠ "NULL".toList := by
      intro heq
      have hmem : 'N' ∈ decimal n := heq ▸ by decide
      exact absurd (mem_decimal hmem) (by decide)
    show (if decimal n = "NULL".toList then _ else _) = _
    rw [if_neg hne, readDecimal_decimal]
    rfl
  | text s =>
    show some (Value.text (String.ofList s.toList)) = _
    rw [String.ofList_toList]
  | null => rfl

/-- **A value without quotes** is one token. -/
theorem lex_value (hv : v.Quoteless) (hrest : Stops rest) :
    lex .gap (v.format ++ rest) = (lex .gap rest).map (v.token :: ·) := by
  cases v with
  | num n =>
    have hdigits : decimalDigits.all isWord := by decide
    exact lex_gap_word (decimal_ne_nil n)
      (fun c hc => List.all_eq_true.1 hdigits c (mem_decimal hc)) hrest
  | text s =>
    show (lex (.literal []) ((s.toList ++ [quote]) ++ rest)).map ([] ++ ·) = _
    rw [List.append_assoc, List.singleton_append, lex_literal hv hrest, Option.map_map]
    rfl
  | null => exact lex_gap_word (by decide) (List.all_eq_true.1 (by decide)) hrest

/-! ## Literals that are read -/

/-- A text with every quote doubled. -/
def double (cs : List Char) : List Char := cs.flatMap fun c => if c = quote then [quote, quote] else [c]

/-- **What a literal was read from**: its characters with every quote
doubled, and a quote that is not followed by one. -/
theorem lex_literal_inv (h : lex (.literal acc) cs = some ts) :
    ∃ content rest ts', cs = double content ++ quote :: rest ∧ rest.head? ≠ some quote ∧
      ts = .literal (acc ++ content) :: ts' := by
  induction hlen : cs.length using Nat.strongRecOn generalizing acc cs ts with
  | ind n ih =>
    cases cs with
    | nil => cases h
    | cons c cs =>
      obtain ⟨ts₁, hts₁, rfl⟩ := Option.map_eq_some_iff.1 h
      by_cases hc : c = quote
      · subst hc
        cases cs with
        | nil =>
          -- the quote at the end of the text ends the literal
          cases hts₁
          exact ⟨[], [], [], rfl, nofun, by rw [List.append_nil]; rfl⟩
        | cons d cs =>
          obtain ⟨ts₂, hts₂, rfl⟩ := Option.map_eq_some_iff.1 hts₁
          by_cases hd : d = quote
          · -- the quote is doubled, and the literal goes on
            subst hd
            obtain ⟨content, rest, ts', hcs, hrest, hts⟩ := ih cs.length
              (by rw [← hlen]; simp) hts₂ rfl
            refine ⟨quote :: content, rest, ts', ?_, hrest, ?_⟩
            · rw [hcs]
              rfl
            · show ts₂ = _
              rw [hts, List.append_assoc]
              rfl
          · refine ⟨[], d :: cs, (Mode.start d).2 ++ ts₂, rfl,
              fun heq => hd (Option.some.inj heq), ?_⟩
            have hnext : Mode.next (.closing acc) d = Mode.emit (.literal acc) d := if_neg hd
            show [] ++ ((Mode.next (.closing acc) d).2 ++ ts₂) = _
            rw [hnext, List.append_nil]
            rfl
      · have hnext : Mode.next (.literal acc) c = (.literal (acc ++ [c]), []) := if_neg hc
        rw [hnext] at hts₁ ⊢
        obtain ⟨content, rest, ts', hcs, hrest, hts⟩ := ih cs.length
          (by rw [← hlen]; simp) hts₁ rfl
        refine ⟨c :: content, rest, ts', ?_, hrest, ?_⟩
        · rw [hcs]
          show c :: (double content ++ quote :: rest) = (if c = quote then _ else [c]) ++ _ ++ _
          rw [if_neg hc]
          rfl
        · show ts₁ = _
          rw [hts, List.append_assoc]
          rfl

/-- Quotes in front of the doubled text are never made up for. -/
theorem ne_replicate_double {n : ℕ} (hd : d ≠ quote) (tail : List Char) :
    cs ++ quote :: d :: tail ≠ List.replicate (n + 1) quote ++ (double cs ++ quote :: rest) := by
  induction cs generalizing n with
  | nil =>
    intro h
    cases n with
    | zero => exact hd (List.cons.inj (List.cons.inj h).2).1
    | succ n => exact hd (List.cons.inj (List.cons.inj h).2).1
  | cons c cs ih =>
    intro h
    obtain ⟨rfl, htail⟩ := List.cons.inj h
    refine ih (n := n + 1) (htail.trans ?_)
    show List.replicate n quote ++ (List.replicate 2 quote ++ (double cs ++ quote :: rest)) = _
    rw [← List.append_assoc, List.replicate_append_replicate]

/-- **A text that is its own doubling has no quote**, where it is followed by
one quote. -/
theorem quote_notMem_of_double (hd : d ≠ quote) {tail : List Char}
    (h : cs ++ quote :: d :: tail = double cs ++ quote :: rest) : quote ∉ cs := by
  induction cs with
  | nil => exact List.not_mem_nil
  | cons c cs ih =>
    by_cases hc : c = quote
    · subst hc
      have htail := (List.cons.inj h).2
      exact absurd htail (ne_replicate_double (n := 0) hd tail)
    · have hdouble : double (c :: cs) = c :: double cs := by
        show (if c = quote then _ else [c]) ++ _ = _
        rw [if_neg hc]
        rfl
      rw [hdouble] at h
      rw [List.mem_cons, not_or]
      exact ⟨fun heq => hc heq.symm, ih (List.cons.inj h).2⟩

/-- **A text with a quote** is not read as itself. -/
theorem quoteless_of_lex {t : Token} {tail : List Char} (hd : d ≠ quote)
    (h : lex .gap (v.format ++ d :: tail) = some (t :: ts)) (ht : Value.ofToken t = some v) :
    v.Quoteless := by
  cases v with
  | num n => trivial
  | null => trivial
  | text s =>
    have hlex : lex (.literal []) (s.toList ++ quote :: d :: tail) = some (t :: ts) := by
      have hcons : lex .gap (quote :: ((s.toList ++ [quote]) ++ d :: tail)) = some (t :: ts) := h
      obtain ⟨ts₁, hts₁, heq⟩ := Option.map_eq_some_iff.1 hcons
      rw [List.append_assoc] at hts₁
      rw [← heq]
      exact hts₁
    obtain ⟨content, rest, ts', hcs, -, hts⟩ := lex_literal_inv hlex
    obtain ⟨rfl, -⟩ := List.cons.inj hts
    have htext : String.ofList content = s := by
      have hsome : some (Value.text (String.ofList ([] ++ content))) = some (Value.text s) := ht
      simpa using hsome
    rw [← htext, String.toList_ofList] at hcs
    show quote ∉ s.toList
    rw [← htext, String.toList_ofList]
    exact quote_notMem_of_double hd hcs

/-! ## Reading statements -/

/-- The first value that is parsed is that of the first token. -/
theorem parseValues_head {vs : List Value} (h : parseValues ts = some (v :: vs)) :
    ∃ t ts', ts = t :: ts' ∧ Value.ofToken t = some v := by
  unfold parseValues at h
  split at h
  next t =>
    obtain ⟨w, hw, heq⟩ := Option.map_eq_some_iff.1 h
    cases heq
    exact ⟨t, _, rfl, hw⟩
  next t ts =>
    obtain ⟨w, hw, hrest⟩ := Option.bind_eq_some_iff.1 h
    obtain ⟨vs', -, heq⟩ := Option.map_eq_some_iff.1 hrest
    cases heq
    exact ⟨t, _, rfl, hw⟩
  · cases h

/-- **Which rows are read as they were written.** -/
theorem parseValues_iff {vs : List Value} (hne : vs ≠ []) :
    (lex .gap (formatValues vs)).bind parseValues = some vs ↔ ∀ v ∈ vs, v.Quoteless := by
  induction vs with
  | nil => exact absurd rfl hne
  | cons v vs ih =>
    -- what follows the value, and the quote of a text, is no quote
    obtain ⟨d, tail, hformat, hquote, hstops⟩ : ∃ d tail,
        formatValues (v :: vs) = v.format ++ d :: tail ∧ d ≠ quote ∧ Stops (d :: tail) := by
      cases vs with
      | nil => exact ⟨')', [], rfl, by decide, stops_cons (by decide) (by decide)⟩
      | cons w vs =>
        exact ⟨',', ' ' :: formatValues (w :: vs), rfl, by decide,
          stops_cons (by decide) (by decide)⟩
    by_cases hv : v.Quoteless
    · cases vs with
      | nil =>
        refine iff_of_true ?_ fun w hw => ?_
        · show (lex .gap (v.format ++ [')'])).bind parseValues = _
          rw [lex_value hv (stops_cons (by decide) (by decide))]
          show (Value.ofToken v.token).map ([·]) = _
          rw [Value.ofToken_token]
          rfl
        · rwa [List.mem_singleton.1 hw]
      | cons w vs =>
        have hlex : lex .gap (formatValues (v :: w :: vs)) =
            (lex .gap (formatValues (w :: vs))).map fun ts => v.token :: .symbol ',' :: ts := by
          show lex .gap (v.format ++ ',' :: ' ' :: formatValues (w :: vs)) = _
          rw [lex_value hv (stops_cons (by decide) (by decide))]
          show ((lex .gap (' ' :: formatValues (w :: vs))).map ([.symbol ','] ++ ·)).map _ = _
          rw [lex_blank, Option.map_map]
          rfl
        rw [List.forall_mem_cons, and_iff_right hv, ← ih (List.cons_ne_nil w vs), hlex]
        cases lex .gap (formatValues (w :: vs)) with
        | none => exact iff_of_false nofun nofun
        | some ts =>
          show (Value.ofToken v.token).bind (fun v => (parseValues ts).map (v :: ·)) = _ ↔
            parseValues ts = _
          rw [Value.ofToken_token, Option.bind_some]
          cases parseValues ts with
          | none => exact iff_of_false nofun nofun
          | some us => simp
    · refine iff_of_false (fun hread => hv ?_) fun hall => hv (hall v List.mem_cons_self)
      obtain ⟨ts, hts, hparse⟩ := Option.bind_eq_some_iff.1 hread
      obtain ⟨t, ts', rfl, ht⟩ := parseValues_head hparse
      rw [hformat] at hts
      exact quoteless_of_lex hquote hts ht

/-- A name of a table or a column. -/
def IsName (s : String) : Prop := s.toList ≠ [] ∧ s.toList.all isWord

instance (s : String) : Decidable (IsName s) :=
  inferInstanceAs (Decidable (s.toList ≠ [] ∧ s.toList.all isWord))

/-- A word of a statement, and the blank after it. -/
theorem lex_word_blank {w : List Char} (hne : w ≠ []) (hw : w.all isWord) (rest : List Char) :
    lex .gap (w ++ ' ' :: rest) = (lex .gap rest).map (.word w :: ·) := by
  rw [lex_gap_word hne (List.all_eq_true.1 hw) (stops_cons (by decide) (by decide)), lex_blank]

/-- **When a row is read as it was written**: exactly where no text of it
has a quote. -/
theorem read_insert_iff {table : String} {values : List Value} (htable : IsName table)
    (hvalues : values ≠ []) :
    read (Statement.insert table values).format = some (.insert table values) ↔
      ∀ v ∈ values, v.Quoteless := by
  have hlex : lex .gap (Statement.insert table values).format.toList =
      (lex .gap (formatValues values)).map fun ts => .word "INSERT".toList ::
        .word "INTO".toList :: .word table.toList :: .word "VALUES".toList :: .symbol '(' :: ts := by
    have hchars : (Statement.insert table values).format.toList = "INSERT".toList ++ ' ' ::
        ("INTO".toList ++ ' ' :: (table.toList ++ ' ' :: ("VALUES".toList ++ ' ' ::
          '(' :: formatValues values))) := by
      show (String.ofList _).toList = _
      rw [String.toList_ofList]
      simp
    have hbracket : lex .gap ('(' :: formatValues values) =
        (lex .gap (formatValues values)).map (.symbol '(' :: ·) := rfl
    rw [hchars, lex_word_blank (by decide) (by decide), lex_word_blank (by decide) (by decide),
      lex_word_blank htable.1 htable.2, lex_word_blank (by decide) (by decide), hbracket]
    simp only [Option.map_map]
    rfl
  rw [← parseValues_iff hvalues]
  unfold read
  rw [hlex]
  -- the table is a name, so only the row can be read in another way
  cases lex .gap (formatValues values) with
  | none => exact iff_of_false nofun nofun
  | some ts =>
    show (parseValues ts).map (Statement.insert (String.ofList table.toList)) = _ ↔
      parseValues ts = _
    rw [String.ofList_toList]
    cases parseValues ts with
    | none => exact iff_of_false nofun nofun
    | some us => simp

/-- A new value for a row is read as it was written. -/
theorem read_update {table column keyColumn : String} {value key : Value} (htable : IsName table)
    (hcolumn : IsName column) (hkeyColumn : IsName keyColumn) (hvalue : value.Quoteless)
    (hkey : key.Quoteless) :
    read (Statement.update table column value keyColumn key).format =
      some (.update table column value keyColumn key) := by
  have hchars : (Statement.update table column value keyColumn key).format.toList =
      "UPDATE".toList ++ ' ' :: (table.toList ++ ' ' :: ("SET".toList ++ ' ' ::
        (column.toList ++ ' ' :: '=' :: ' ' :: (value.format ++ ' ' :: ("WHERE".toList ++ ' ' ::
          (keyColumn.toList ++ ' ' :: '=' :: ' ' :: (key.format ++ []))))))) := by
    show (String.ofList _).toList = _
    rw [String.toList_ofList]
    simp
  have hequals : ∀ rest, lex .gap ('=' :: ' ' :: rest) =
      (lex .gap rest).map (.symbol '=' :: ·) := fun rest => by
    show (lex .gap (' ' :: rest)).map ([.symbol '='] ++ ·) = _
    rw [lex_blank]
    rfl
  unfold read
  rw [hchars, lex_word_blank (by decide) (by decide), lex_word_blank htable.1 htable.2,
    lex_word_blank (by decide) (by decide), lex_word_blank hcolumn.1 hcolumn.2, hequals,
    lex_value hvalue (stops_cons (by decide) (by decide)), lex_blank,
    lex_word_blank (by decide) (by decide), lex_word_blank hkeyColumn.1 hkeyColumn.2, hequals,
    lex_value hkey stops_nil]
  show (Value.ofToken value.token).bind (fun value => (Value.ofToken key.token).map fun key =>
    Statement.update (String.ofList table.toList) (String.ofList column.toList) value
      (String.ofList keyColumn.toList) key) = _
  simp only [Value.ofToken_token, Option.bind_some, Option.map_some, String.ofList_toList]

end Sql

end Rensa
