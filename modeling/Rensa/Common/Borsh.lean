import Rensa.Common.Bytes
/-!
# The Borsh encoding

A type with a Borsh encoding is an instance of `Borsh`, which carries its
round trip: reading what was written, with anything after it, gives the
value and what came after. Integers are little-endian, an option is a tag
byte and its value, a text is its length in four bytes and its UTF-8
bytes, a vector its length in four bytes and its elements, and a record
is its fields in order (`ofEquiv`). `Canonical` says that a value is read
from no bytes but those that writing it gives.
-/

namespace Rensa

/-- A type with its Borsh encoding. -/
class Borsh (α : Type) where
  serialize : α → Bytes
  /-- Reads a value, and returns it with the bytes after it. -/
  deserialize : Bytes → Option (α × Bytes)
  deserialize_serialize : ∀ a rest, deserialize (serialize a ++ rest) = some (a, rest)

namespace Borsh

variable {α β : Type}

attribute [simp] deserialize_serialize

/-- `BorshDeserialize::try_from_slice`: nothing may be left over. -/
def tryFromSlice (α : Type) [Borsh α] (bs : Bytes) : Option α :=
  match (deserialize bs : Option (α × Bytes)) with
  | some (a, []) => some a
  | _ => none

@[simp] theorem tryFromSlice_serialize [Borsh α] (a : α) :
    tryFromSlice α (serialize a) = some a := by
  have h := deserialize_serialize a []
  rw [List.append_nil] at h
  rw [tryFromSlice, h]

theorem tryFromSlice_eq_some [Borsh α] {bs : Bytes} {a : α} :
    tryFromSlice α bs = some a ↔ deserialize bs = some (a, []) := by
  rw [tryFromSlice]
  constructor
  · intro h
    split at h
    · rename_i hread
      rw [hread, Option.some.inj h]
    · cases h
  · intro h
    rw [h]

/-- The first `n` bytes, and the rest. -/
def takeExact (n : ℕ) (bs : Bytes) : Option (Bytes × Bytes) :=
  if n ≤ bs.length then some (bs.take n, bs.drop n) else none

theorem takeExact_append {n : ℕ} {as : Bytes} (h : as.length = n) (rest : Bytes) :
    takeExact n (as ++ rest) = some (as, rest) := by
  subst h
  simp [takeExact]

instance : Borsh UInt8 where
  serialize b := [b]
  deserialize
    | [] => none
    | b :: rest => some (b, rest)
  deserialize_serialize _ _ := rfl

instance : Borsh UInt64 where
  serialize n := leBytes 8 n.toNat
  deserialize bs := (takeExact 8 bs).map fun p => (UInt64.ofNat (leNat p.1), p.2)
  deserialize_serialize n rest := by
    have hn : n.toNat < 256 ^ 8 := n.toNat_lt
    rw [takeExact_append (length_leBytes _ _), Option.map_some, leNat_leBytes hn,
      UInt64.ofNat_toNat]

instance : Borsh UInt16 where
  serialize n := leBytes 2 n.toNat
  deserialize bs := (takeExact 2 bs).map fun p => (UInt16.ofNat (leNat p.1), p.2)
  deserialize_serialize n rest := by
    have hn : n.toNat < 256 ^ 2 := n.toNat_lt
    rw [takeExact_append (length_leBytes _ _), Option.map_some, leNat_leBytes hn,
      UInt16.ofNat_toNat]

instance : Borsh UInt32 where
  serialize n := leBytes 4 n.toNat
  deserialize bs := (takeExact 4 bs).map fun p => (UInt32.ofNat (leNat p.1), p.2)
  deserialize_serialize n rest := by
    have hn : n.toNat < 256 ^ 4 := n.toNat_lt
    rw [takeExact_append (length_leBytes _ _), Option.map_some, leNat_leBytes hn,
      UInt32.ofNat_toNat]

/-- A byte array of fixed length. -/
abbrev FixedBytes (n : ℕ) := { bs : Bytes // bs.length = n }

instance (n : ℕ) : Borsh (FixedBytes n) where
  serialize bs := bs.1
  deserialize bs :=
    if h : n ≤ bs.length then some (⟨bs.take n, List.length_take_of_le h⟩, bs.drop n) else none
  deserialize_serialize := by
    rintro ⟨as, rfl⟩ rest
    rw [dif_pos (by simp)]
    simp

instance [Borsh α] : Borsh (Option α) where
  serialize
    | none => [0]
    | some a => 1 :: serialize a
  deserialize
    | 0 :: rest => some (none, rest)
    | 1 :: rest => (deserialize rest).map fun p => (some p.1, p.2)
    | _ => none
  deserialize_serialize a rest := by
    cases a with
    | none => rfl
    | some a => simp

instance [Borsh α] [Borsh β] : Borsh (α × β) where
  serialize p := serialize p.1 ++ serialize p.2
  deserialize bs :=
    match (deserialize bs : Option (α × Bytes)) with
    | none => none
    | some (a, rest) => (deserialize rest).map fun p => ((a, p.1), p.2)
  deserialize_serialize p rest := by
    simp [List.append_assoc]

/-- The parts of a pair are read one after the other. -/
theorem deserialize_pair [Borsh α] [Borsh β] {bs rest : Bytes} {p : α × β}
    (h : deserialize bs = some (p, rest)) :
    ∃ mid, deserialize bs = some (p.1, mid) ∧ deserialize mid = some (p.2, rest) := by
  simp only [deserialize] at h
  split at h
  · cases h
  · rename_i a mid hfirst
    obtain ⟨⟨b, rest'⟩, hsecond, heq⟩ := Option.map_eq_some_iff.1 h
    obtain ⟨rfl, rfl⟩ := Prod.mk.inj heq
    exact ⟨mid, hfirst, hsecond⟩

/-- A text Borsh can write: its length fits in four bytes. -/
abbrev Text := { s : String // s.utf8ByteSize < 2 ^ 32 }

/-- The text whose UTF-8 encoding is the given bytes. -/
def decodeText (bs : Bytes) : Option Text :=
  match String.fromUTF8? ⟨bs.toArray⟩ with
  | none => none
  | some s => if h : s.utf8ByteSize < 2 ^ 32 then some ⟨s, h⟩ else none

private theorem decodeText_toList (s : Text) : decodeText s.1.toByteArray.data.toList = some s := by
  have hs : String.fromUTF8? ⟨s.1.toByteArray.data.toList.toArray⟩ = some s.1 := by
    have : (⟨s.1.toByteArray.data.toList.toArray⟩ : ByteArray) = s.1.toByteArray := by
      simp
    rw [this, String.fromUTF8?, dif_pos s.1.isValidUTF8]
    rfl
  simp only [decodeText, hs]
  rw [dif_pos s.2]

instance : Borsh Text where
  serialize s := leBytes 4 s.1.utf8ByteSize ++ s.1.toByteArray.data.toList
  deserialize bs :=
    match takeExact 4 bs with
    | none => none
    | some (len, rest) =>
      match takeExact (leNat len) rest with
      | none => none
      | some (text, rest) => (decodeText text).map fun s => (s, rest)
  deserialize_serialize s rest := by
    have hlen : leNat (leBytes 4 s.1.utf8ByteSize) = s.1.utf8ByteSize := leNat_leBytes s.2
    have hsize : s.1.toByteArray.data.toList.length = s.1.utf8ByteSize := by simp
    simp only [List.append_assoc, takeExact_append (length_leBytes _ _), hlen,
      takeExact_append hsize, decodeText_toList, Option.map_some]

/-- A record is encoded as the tuple of its fields. -/
@[reducible] def ofEquiv [Borsh β] (e : α ≃ β) : Borsh α where
  serialize a := serialize (e a)
  deserialize bs := (deserialize bs).map fun p => (e.symm p.1, p.2)
  deserialize_serialize a rest := by simp

instance : Borsh Bool where
  serialize b := [if b then 1 else 0]
  deserialize
    | 0 :: rest => some (false, rest)
    | 1 :: rest => some (true, rest)
    | _ => none
  deserialize_serialize b rest := by
    cases b <;> rfl

/-! ## Vectors -/

/-- Reads `n` values, one after another. -/
def readMany (read : Bytes → Option (α × Bytes)) : ℕ → Bytes → Option (List α × Bytes)
  | 0, bs => some ([], bs)
  | n + 1, bs =>
    match read bs with
    | none => none
    | some (a, rest) => (readMany read n rest).map fun p => (a :: p.1, p.2)

/-- Reads the number of the values, and the values. -/
def readVec (read : Bytes → Option (α × Bytes)) (bs : Bytes) : Option (List α × Bytes) :=
  match takeExact 4 bs with
  | none => none
  | some (len, rest) => readMany read (leNat len) rest

/-- What was written with `write`, one value after another, is read. -/
theorem readMany_flatMap {write : α → Bytes} {read : Bytes → Option (β × Bytes)} {f : α → β}
    (l : List α) (h : ∀ a ∈ l, ∀ rest, read (write a ++ rest) = some (f a, rest)) (rest : Bytes) :
    readMany read l.length (l.flatMap write ++ rest) = some (l.map f, rest) := by
  induction l with
  | nil => rfl
  | cons a l ih =>
    rw [List.flatMap_cons, List.append_assoc, List.length_cons, readMany, h a List.mem_cons_self]
    simp only [ih fun b hb => h b (List.mem_cons_of_mem _ hb), Option.map_some, List.map_cons]

theorem readVec_flatMap {write : α → Bytes} {read : Bytes → Option (β × Bytes)} {f : α → β}
    {l : List α} (hl : l.length < 2 ^ 32)
    (h : ∀ a ∈ l, ∀ rest, read (write a ++ rest) = some (f a, rest)) (rest : Bytes) :
    readVec read (leBytes 4 l.length ++ l.flatMap write ++ rest) = some (l.map f, rest) := by
  have hlen : leNat (leBytes 4 l.length) = l.length := leNat_leBytes hl
  rw [readVec, List.append_assoc, takeExact_append (length_leBytes _ _)]
  simp only [hlen]
  exact readMany_flatMap l h rest

/-- One more value: the first is read, and then the others. -/
theorem readMany_succ_eq_some {read : Bytes → Option (α × Bytes)} {n : ℕ} {bs rest : Bytes}
    {l : List α} (hread : readMany read (n + 1) bs = some (l, rest)) :
    ∃ a mid l', read bs = some (a, mid) ∧ readMany read n mid = some (l', rest) ∧ l = a :: l' := by
  simp only [readMany] at hread
  split at hread
  · cases hread
  · rename_i a mid hfirst
    obtain ⟨p, hmany, heq⟩ := Option.map_eq_some_iff.1 hread
    obtain ⟨rfl, rfl⟩ := Prod.mk.inj heq
    exact ⟨a, mid, p.1, hfirst, hmany, rfl⟩

/-- The bytes that reading values takes, where `size` is what each of them
takes. -/
theorem length_readMany {read : Bytes → Option (α × Bytes)} {size : α → ℕ}
    (h : ∀ bs a rest, read bs = some (a, rest) → bs.length = size a + rest.length) {n : ℕ}
    {bs rest : Bytes} {l : List α} (hread : readMany read n bs = some (l, rest)) :
    bs.length = (l.map size).sum + rest.length := by
  induction n generalizing bs l with
  | zero =>
    obtain ⟨rfl, rfl⟩ := Prod.mk.inj (Option.some.inj hread)
    simp
  | succ n ih =>
    obtain ⟨a, mid, l', hfirst, hmany, rfl⟩ := readMany_succ_eq_some hread
    have h1 := h _ _ _ hfirst
    have h2 := ih hmany
    rw [List.map_cons, List.sum_cons]
    omega

theorem length_readVec {read : Bytes → Option (α × Bytes)} (size : α → ℕ)
    (h : ∀ bs a rest, read bs = some (a, rest) → bs.length = size a + rest.length)
    {bs rest : Bytes} {l : List α} (hread : readVec read bs = some (l, rest)) :
    bs.length = 4 + (l.map size).sum + rest.length := by
  rw [readVec] at hread
  split at hread
  · cases hread
  · rename_i len mid htake
    have hmid := length_readMany h hread
    simp only [takeExact] at htake
    split at htake
    · obtain ⟨-, rfl⟩ := Prod.mk.inj (Option.some.inj htake)
      rw [List.length_drop] at hmid
      omega
    · cases htake

/-- A vector Borsh can write: its length fits in four bytes. -/
abbrev Vec (α : Type) := { l : List α // l.length < 2 ^ 32 }

theorem length_nil_lt {α : Type} : ([] : List α).length < 2 ^ 32 := by
  norm_num

instance [Borsh α] : Borsh (Vec α) where
  serialize l := leBytes 4 l.1.length ++ l.1.flatMap serialize
  deserialize bs :=
    match readVec (deserialize : Bytes → Option (α × Bytes)) bs with
    | none => none
    | some (l, rest) => if h : l.length < 2 ^ 32 then some (⟨l, h⟩, rest) else none
  deserialize_serialize l rest := by
    have hread := readVec_flatMap l.2 (f := id)
      (fun a _ rest => deserialize_serialize a rest) rest
    rw [List.map_id] at hread
    simp only [hread]
    rw [dif_pos l.2]

/-! ## What is read -/

/-- **Reading takes as many bytes as writing gives.** -/
class Exact (α : Type) [Borsh α] : Prop where
  length_deserialize : ∀ {bs rest : Bytes} {a : α}, deserialize bs = some (a, rest) →
    bs.length = (serialize a).length + rest.length

export Exact (length_deserialize)

/-- **What is read was written.** No bytes but those of `serialize` are
read as a value. -/
class Canonical (α : Type) [Borsh α] : Prop where
  eq_serialize_append : ∀ {bs rest : Bytes} {a : α}, deserialize bs = some (a, rest) →
    bs = serialize a ++ rest

export Canonical (eq_serialize_append)

instance [Borsh α] [Canonical α] : Exact α where
  length_deserialize h := by
    rw [eq_serialize_append h, List.length_append]

/-- A slice that is read as a value is what the value is written as. -/
theorem serialize_of_tryFromSlice [Borsh α] [Canonical α] {bs : Bytes} {a : α} :
    tryFromSlice α bs = some a ↔ bs = serialize a := by
  constructor
  · intro h
    rw [eq_serialize_append (tryFromSlice_eq_some.1 h), List.append_nil]
  · rintro rfl
    exact tryFromSlice_serialize a

theorem takeExact_eq_some {n : ℕ} {bs as rest : Bytes} :
    takeExact n bs = some (as, rest) ↔ as.length = n ∧ bs = as ++ rest := by
  constructor
  · intro h
    simp only [takeExact] at h
    split at h
    · rename_i hle
      obtain ⟨rfl, rfl⟩ := Prod.mk.inj (Option.some.inj h)
      exact ⟨List.length_take_of_le hle, (List.take_append_drop n bs).symm⟩
    · cases h
  · rintro ⟨hlen, rfl⟩
    exact takeExact_append hlen rest

instance : Canonical UInt8 where
  eq_serialize_append {bs rest a} h := by
    cases bs with
    | nil => cases h
    | cons b bs =>
      obtain ⟨rfl, rfl⟩ := Prod.mk.inj (Option.some.inj h)
      rfl

instance : Canonical UInt64 where
  eq_serialize_append {bs rest a} h := by
    obtain ⟨⟨as, rest'⟩, htake, heq⟩ := Option.map_eq_some_iff.1 h
    obtain ⟨rfl, rfl⟩ := Prod.mk.inj heq
    obtain ⟨hlen, rfl⟩ := takeExact_eq_some.1 htake
    have hlt : leNat as < 2 ^ 64 := by
      have := leNat_lt as
      rwa [hlen, show (256 : ℕ) ^ 8 = 2 ^ 64 by norm_num] at this
    change as ++ rest' = leBytes 8 (UInt64.ofNat (leNat as)).toNat ++ rest'
    rw [UInt64.toNat_ofNat_of_lt' hlt, leBytes_leNat hlen]

instance : Canonical Bool where
  eq_serialize_append {bs rest a} h := by
    simp only [deserialize] at h
    split at h
    · obtain ⟨rfl, rfl⟩ := Prod.mk.inj (Option.some.inj h)
      rfl
    · obtain ⟨rfl, rfl⟩ := Prod.mk.inj (Option.some.inj h)
      rfl
    · cases h

instance [Borsh α] [Canonical α] : Canonical (Option α) where
  eq_serialize_append {bs rest a} h := by
    simp only [deserialize] at h
    split at h
    · obtain ⟨rfl, rfl⟩ := Prod.mk.inj (Option.some.inj h)
      rfl
    · obtain ⟨⟨b, rest'⟩, hb, heq⟩ := Option.map_eq_some_iff.1 h
      obtain ⟨rfl, rfl⟩ := Prod.mk.inj heq
      rw [eq_serialize_append hb]
      rfl
    · cases h

instance [Borsh α] [Borsh β] [Canonical α] [Canonical β] : Canonical (α × β) where
  eq_serialize_append {bs rest a} h := by
    obtain ⟨mid, hfirst, hsecond⟩ := deserialize_pair h
    rw [eq_serialize_append hfirst, eq_serialize_append hsecond, ← List.append_assoc]
    rfl

/-- Values that are read one after another were written so. -/
theorem readMany_eq_some [Borsh α] [Canonical α] {n : ℕ} {bs rest : Bytes} {l : List α}
    (hread : readMany deserialize n bs = some (l, rest)) :
    l.length = n ∧ bs = l.flatMap serialize ++ rest := by
  induction n generalizing bs l with
  | zero =>
    obtain ⟨rfl, rfl⟩ := Prod.mk.inj (Option.some.inj hread)
    exact ⟨rfl, rfl⟩
  | succ n ih =>
    obtain ⟨a, mid, l', hfirst, hmany, rfl⟩ := readMany_succ_eq_some hread
    obtain ⟨hlen, rfl⟩ := ih hmany
    refine ⟨congrArg (· + 1) hlen, ?_⟩
    rw [eq_serialize_append hfirst, List.flatMap_cons, List.append_assoc]

instance [Borsh α] [Canonical α] : Canonical (Vec α) where
  eq_serialize_append {bs rest a} h := by
    simp only [deserialize, readVec] at h
    split at h
    · cases h
    · rename_i l rest' hread
      split at h
      · obtain ⟨rfl, rfl⟩ := Prod.mk.inj (Option.some.inj h)
        split at hread
        · cases hread
        · rename_i len mid htake
          obtain ⟨hwidth, rfl⟩ := takeExact_eq_some.1 htake
          obtain ⟨hlen, rfl⟩ := readMany_eq_some hread
          change len ++ _ = leBytes 4 l.length ++ l.flatMap serialize ++ rest'
          rw [hlen, leBytes_leNat hwidth, List.append_assoc]
      · cases h

/-- The bytes a text was decoded from. -/
theorem toList_decodeText {bs : Bytes} {s : Text} (h : decodeText bs = some s) :
    s.1.toByteArray.data.toList = bs := by
  simp only [decodeText, String.fromUTF8?] at h
  split at h
  · cases h
  · rename_i t ht
    split at h
    · obtain rfl := Option.some.inj h
      split at ht
      · obtain rfl := Option.some.inj ht
        rfl
      · cases ht
    · cases h

instance : Canonical Text where
  eq_serialize_append {bs rest s} h := by
    simp only [deserialize] at h
    split at h
    · cases h
    · rename_i len mid hlen
      split at h
      · cases h
      · rename_i text rest' htext
        obtain ⟨t, ht, heq⟩ := Option.map_eq_some_iff.1 h
        obtain ⟨rfl, rfl⟩ := Prod.mk.inj heq
        obtain ⟨hwidth, rfl⟩ := takeExact_eq_some.1 hlen
        obtain ⟨hsize, rfl⟩ := takeExact_eq_some.1 htext
        have hbytes := toList_decodeText ht
        have hcount : t.1.utf8ByteSize = leNat len := by
          rw [← hsize, ← hbytes]
          simp
        change len ++ _ = leBytes 4 t.1.utf8ByteSize ++ t.1.toByteArray.data.toList ++ rest'
        rw [hcount, leBytes_leNat hwidth, hbytes, List.append_assoc]

/-- A record is what its fields are. -/
theorem canonical_ofEquiv [Borsh β] [Canonical β] (e : α ≃ β) : @Canonical α (ofEquiv e) := by
  refine @Canonical.mk α (ofEquiv e) ?_
  intro bs rest a h
  obtain ⟨⟨b, rest'⟩, hb, heq⟩ := Option.map_eq_some_iff.1 h
  obtain ⟨rfl, rfl⟩ := Prod.mk.inj heq
  change bs = serialize (e (e.symm b)) ++ rest'
  rw [Equiv.apply_symm_apply]
  exact eq_serialize_append hb

end Borsh

end Rensa
