import Gogo.Api.Numbers
import Gogo.Models.Schema

/-!
# Sealed mutation responses

`sealMutationResponse` checks the response of a mutation and brings its numbers into canonical
form, before it is stored and again when the stored response is replayed. In between, a database
may spell the numbers in its own way.

* `GoValue`, `receiptObject` — what a callback hands over, and its copy through bounded JSON.
* `sealMutationResponse` — the checks and the sealed response.
* `sealMutationResponse_reopen_iff` — **sealing a respelled sealed response gives it back exactly
  when the respelled numbers and the document as a whole stay within the bounds.**
-/

namespace Gogo.Api

open List Gogo.Lib

/-! ## Copies through bounded JSON -/

/-- A document with number tokens. -/
abbrev Document := Doc Spelling

/-- A value that a callback hands over. -/
inductive GoValue
  | null
  | bool (b : Bool)
  /-- A number, by the token that it is encoded as. -/
  | num (n : Spelling)
  | str (s : String)
  /-- A slice or an array. -/
  | list (items : List GoValue)
  /-- A map that is not of type `Values`. -/
  | map (entries : List (String × GoValue))
  /-- A map of type `Values`. -/
  | values (entries : List (String × GoValue))
  /-- A value that encodes itself, with the document that its encoding is read as; there is none
  if the encoding fails, panics, is no JSON, or has an object with a repeated name. -/
  | custom (encoding : Option Document)

/-- What the repository's other packages and the standard library contribute. -/
structure Library where
  /-- The length of a string in quotes, with escapes. -/
  quoted : String → ℕ
  /-- `security.SafeNext(value, "") != ""`. -/
  safeNext : String → Bool

/-- One value is counted: the nesting must not be exhausted, nor the budget. -/
def spend (depth budget : ℤ) : Option ℤ :=
  if depth < 0 ∨ budget - 1 < 0 then none else some (budget - 1)

mutual

/-- `validReceiptText`: the budget that is left, nothing if the answer is `false`. -/
def validReceiptText : GoValue → ℤ → ℤ → Option ℤ
  | .list items, depth, budget => (spend depth budget).bind (validItems items (depth - 1))
  | .map entries, depth, budget => (spend depth budget).bind (validEntries entries (depth - 1))
  -- `Values` are converted and looked at once more, at the same depth.
  | .values entries, depth, budget =>
    ((spend depth budget).bind (spend depth)).bind (validEntries entries (depth - 1))
  | .null, depth, budget => spend depth budget
  | .bool _, depth, budget => spend depth budget
  | .num _, depth, budget => spend depth budget
  | .str _, depth, budget => spend depth budget
  | .custom _, depth, budget => spend depth budget

/-- The loop over a slice. -/
def validItems : List GoValue → ℤ → ℤ → Option ℤ
  | [], _, budget => some budget
  | v :: items, depth, budget => (validReceiptText v depth budget).bind (validItems items depth)

/-- The loop over a map. -/
def validEntries : List (String × GoValue) → ℤ → ℤ → Option ℤ
  | [], _, budget => some budget
  | (_, v) :: entries, depth, budget =>
    (validReceiptText v depth budget).bind (validEntries entries depth)

end

mutual

/-- `json.Marshal`, by the document that is written. -/
def encode : GoValue → Option Document
  | .null => some .null
  | .bool b => some (.bool b)
  | .num n => some (.num n)
  | .str s => some (.str s)
  | .list items => (encodeItems items).map .arr
  | .map entries => (encodeEntries entries).map .obj
  | .values entries => (encodeEntries entries).map .obj
  | .custom encoding => encoding

def encodeItems : List GoValue → Option (List Document)
  | [] => some []
  | v :: items => (encode v).bind fun d => (encodeItems items).map (d :: ·)

def encodeEntries : List (String × GoValue) → Option (List (String × Document))
  | [] => some []
  | (k, v) :: entries => (encode v).bind fun d => (encodeEntries entries).map ((k, d) :: ·)

end

/-- The length of an encoded document. -/
def encodedLength (lib : Library) (d : Document) : ℕ :=
  d.size lib.quoted fun n => n.text.length

/-- `receiptObject` of a value of type `Values`, absent if it is nil. -/
def receiptObject (lib : Library) :
    Option (List (String × GoValue)) → Except String (List (String × Document))
  | none => .error "api: operation JSON must be an object"
  | some entries =>
    match validReceiptText (.values entries) 32 65536 with
    | none => .error "api: invalid operation JSON"
    | some _ =>
      match encodeEntries entries with
      | none => .error "api: invalid operation JSON"
      | some members =>
        if encodedLength lib (.obj members) > 2 ^ 20 then .error "api: invalid operation JSON"
        else if Doc.Fits (.obj members) 32 then .ok members
        else .error "api: invalid operation JSON"

/-! ## Sealing -/

/-- `MutationResponse` as a callback returns it. -/
structure MutationResponse where
  status : ℤ
  headers : FinMap String String
  body : Option (List (String × GoValue))
  objectKey : Option (List (String × GoValue))

/-- `MutationResponse` after it was sealed. -/
structure Sealed where
  status : ℤ
  headers : FinMap String String
  body : List (String × Document)
  objectKey : List (String × Document)

/-- `validReceiptETag`. -/
def validReceiptETag (value : String) : Bool :=
  match value.toList with
  | [] => false
  | c :: rest =>
    c == '"' && rest.getLast? == some '"' &&
      rest.dropLast.all fun c => c.toNat == 0x21 || (0x23 ≤ c.toNat && c.toNat ≤ 0x7e)

/-- The checks of one header. -/
def validHeader (lib : Library) (name value : String) : Bool :=
  !(value.utf8ByteSize > 4096 || value.toList.any fun c => c == '\r' || c == '\n' || c.toNat == 0)
    && (if name = "Content-Type" then value == "application/json"
        else if name = "Location" then value.startsWith "/" && lib.safeNext value
        else if name = "ETag" then validReceiptETag value
        else false)

/-- The checks of one member of the object key, with its number in canonical form. -/
def sealKeyMember : String × Document → Option (String × Document)
  | (name, .str s) =>
    if Models.validIdentifier name ∧ s.utf8ByteSize ≤ 1024 then some (name, .str s) else none
  | (name, .num n) =>
    if Models.validIdentifier name then
      match canonicalKeyNumber n with
      | .ok m => some (name, .num m)
      | .error _ => none
    else none
  | _ => none

/-- `canonicalOperation` of an object: every number in it is brought into canonical form. -/
def canonicalOperation (members : List (String × Document)) :
    Except String (List (String × Document)) :=
  Doc.traverseMembers canonicalNumber members

/-- The headers of a sealed response. -/
def sealHeaders (status : ℤ) (headers : FinMap String String) : FinMap String String :=
  if status ≠ 204 then headers.set "Content-Type" "application/json" else headers

/-- `sealMutationResponse`. -/
def sealMutationResponse (lib : Library) (response : MutationResponse) : Except String Sealed := do
  let invalid := "api: invalid mutation response"
  refuseIf (response.status ≠ 200 ∧ response.status ≠ 201 ∧ response.status ≠ 204) invalid
  let key ← (receiptObject lib response.objectKey).mapError fun _ => invalid
  refuseIf (key.length < 1 ∨ key.length > 16) invalid
  let key ← (key.mapM sealKeyMember).elim (.error invalid) .ok
  let body ← (receiptObject lib (some (response.body.getD []))).mapError fun _ => invalid
  refuseIf (response.status = 204 ∧ body.length ≠ 0) invalid
  let body ← (canonicalOperation body).mapError fun _ => invalid
  refuseIf (∃ h ∈ response.headers.entries, validHeader lib h.1 h.2 = false) invalid
  pure
    { status := response.status
      headers := sealHeaders response.status response.headers
      body := body
      objectKey := key }

/-! ## Documents as values -/

mutual

/-- A document as a decoder or the database hands it over. -/
def ofDoc : Document → GoValue
  | .null => .null
  | .bool b => .bool b
  | .num n => .num n
  | .str s => .str s
  | .arr items => .list (ofItems items)
  | .obj members => .map (ofMembers members)

def ofItems : List Document → List GoValue
  | [] => []
  | d :: items => ofDoc d :: ofItems items

def ofMembers : List (String × Document) → List (String × GoValue)
  | [] => []
  | (k, d) :: members => (k, ofDoc d) :: ofMembers members

end

/-- A sealed response as the input of another sealing. -/
def Sealed.reopen (s : Sealed) : MutationResponse where
  status := s.status
  headers := s.headers
  body := some (ofMembers s.body)
  objectKey := some (ofMembers s.objectKey)

mutual

theorem encode_ofDoc : ∀ d : Document, encode (ofDoc d) = some d
  | .null => rfl
  | .bool _ => rfl
  | .num _ => rfl
  | .str _ => rfl
  | .arr items => by rw [ofDoc, encode, encodeItems_ofItems items, Option.map_some]
  | .obj members => by rw [ofDoc, encode, encodeEntries_ofMembers members, Option.map_some]

theorem encodeItems_ofItems : ∀ items : List Document, encodeItems (ofItems items) = some items
  | [] => rfl
  | d :: items => by
    rw [ofItems, encodeItems, encode_ofDoc d, encodeItems_ofItems items]
    rfl

theorem encodeEntries_ofMembers : ∀ members : List (String × Document),
    encodeEntries (ofMembers members) = some members
  | [] => rfl
  | (k, d) :: members => by
    rw [ofMembers, encodeEntries, encode_ofDoc d, encodeEntries_ofMembers members]
    rfl

end

variable {budget left : ℤ} {lib : Library} {a b : String × Document}
  {l' l : List (String × Document)}

lemma spend_eq_some_iff {depth : ℤ} :
    spend depth budget = some left ↔ 0 ≤ depth ∧ left = budget - 1 ∧ 0 ≤ left := by
  unfold spend
  by_cases h : depth < 0 ∨ budget - 1 < 0
  · rw [if_pos h]
    simp only [reduceCtorEq, false_iff]
    omega
  · rw [if_neg h, Option.some.injEq]
    omega

/-- What a first part leaves, a second part is given. -/
lemma left_eq_iff {P Q : Prop} {n t : ℤ} {m : ℕ} {rest : ℤ → Prop} (ht : t = n + m)
    (hrest : ∀ b, 0 ≤ b → (rest b ↔ Q ∧ left = b - m ∧ 0 ≤ left)) :
    (∃ b, (P ∧ b = budget - n ∧ 0 ≤ b) ∧ rest b) ↔
      (P ∧ Q) ∧ left = budget - t ∧ 0 ≤ left := by
  constructor
  · rintro ⟨b, ⟨hP, rfl, hb⟩, h⟩
    obtain ⟨hQ, hleft, hpos⟩ := (hrest _ hb).mp h
    exact ⟨⟨hP, hQ⟩, by omega, hpos⟩
  · rintro ⟨⟨hP, hQ⟩, hleft, hpos⟩
    have hb : 0 ≤ budget - n := by omega
    exact ⟨_, ⟨hP, rfl, hb⟩, (hrest _ hb).mpr ⟨hQ, by omega, hpos⟩⟩

mutual

/-- The check of a document counts its values and measures its nesting. -/
theorem validReceiptText_ofDoc : ∀ (d : Document) (depth budget left : ℤ),
    validReceiptText (ofDoc d) depth budget = some left ↔
      d.Fits depth ∧ left = budget - d.nodes ∧ 0 ≤ left
  | .null, _, _, _ => spend_eq_some_iff
  | .bool _, _, _, _ => spend_eq_some_iff
  | .num _, _, _, _ => spend_eq_some_iff
  | .str _, _, _, _ => spend_eq_some_iff
  | .arr items, depth, budget, left => by
    simp only [ofDoc, validReceiptText, Doc.Fits, Doc.nodes, Option.bind_eq_some_iff,
      spend_eq_some_iff]
    exact left_eq_iff (Nat.cast_add 1 _) fun b => validItems_ofItems items _ b _
  | .obj members, depth, budget, left => by
    simp only [ofDoc, validReceiptText, Doc.Fits, Doc.nodes, Option.bind_eq_some_iff,
      spend_eq_some_iff]
    exact left_eq_iff (Nat.cast_add 1 _) fun b => validEntries_ofMembers members _ b _

theorem validItems_ofItems : ∀ (items : List Document) (depth budget left : ℤ), 0 ≤ budget →
    (validItems (ofItems items) depth budget = some left ↔
      Doc.FitsItems items depth ∧ left = budget - Doc.nodesItems items ∧ 0 ≤ left)
  | [], _, budget, left, hb => by
    simp only [ofItems, validItems, Doc.FitsItems, Doc.nodesItems, Option.some.injEq,
      Nat.cast_zero, sub_zero, true_and]
    constructor
    · rintro rfl
      exact ⟨rfl, hb⟩
    · rintro ⟨h, -⟩
      exact h.symm
  | d :: items, depth, budget, left, hb => by
    simp only [ofItems, validItems, Doc.FitsItems, Doc.nodesItems, Option.bind_eq_some_iff,
      validReceiptText_ofDoc d]
    exact left_eq_iff (Nat.cast_add _ _) fun b => validItems_ofItems items _ b _

theorem validEntries_ofMembers : ∀ (members : List (String × Document)) (depth budget left : ℤ),
    0 ≤ budget → (validEntries (ofMembers members) depth budget = some left ↔
      Doc.FitsMembers members depth ∧ left = budget - Doc.nodesMembers members ∧ 0 ≤ left)
  | [], _, budget, left, hb => by
    simp only [ofMembers, validEntries, Doc.FitsMembers, Doc.nodesMembers, Option.some.injEq,
      Nat.cast_zero, sub_zero, true_and]
    constructor
    · rintro rfl
      exact ⟨rfl, hb⟩
    · rintro ⟨h, -⟩
      exact h.symm
  | (k, d) :: members, depth, budget, left, hb => by
    simp only [ofMembers, validEntries, Doc.FitsMembers, Doc.nodesMembers,
      Option.bind_eq_some_iff, validReceiptText_ofDoc d]
    exact left_eq_iff (Nat.cast_add _ _) fun b => validEntries_ofMembers members _ b _

end

/-- A document within the bounds of `receiptObject`, its nesting apart. -/
def Bounded (lib : Library) (members : List (String × Document)) : Prop :=
  Doc.nodesMembers members + 2 ≤ 65536 ∧ encodedLength lib (.obj members) ≤ 2 ^ 20

/-- What `receiptObject` accepts of a document that is handed over again. -/
lemma receiptObject_ofMembers_iff (lib : Library) (members result : List (String × Document)) :
    receiptObject lib (some (ofMembers members)) = .ok result ↔
      Bounded lib members ∧ Doc.FitsMembers members 31 ∧ members = result := by
  have hvalid : (∃ left, validReceiptText (.values (ofMembers members)) 32 65536 = some left) ↔
      Doc.FitsMembers members 31 ∧ Doc.nodesMembers members + 2 ≤ 65536 := by
    have hspend : (spend 32 65536).bind (spend 32) = some 65534 := by decide
    simp only [validReceiptText, hspend, Option.bind_some]
    constructor
    · rintro ⟨left, h⟩
      obtain ⟨hfit, hleft, hpos⟩ :=
        (validEntries_ofMembers members _ _ left (by norm_num)).mp h
      exact ⟨hfit, by omega⟩
    · rintro ⟨hfit, hnodes⟩
      exact ⟨_, (validEntries_ofMembers members _ _ _ (by norm_num)).mpr
        ⟨hfit, rfl, by omega⟩⟩
  have hfits : Doc.Fits (.obj members) 32 ↔ Doc.FitsMembers members 31 := by
    rw [Doc.Fits]
    norm_num
  unfold receiptObject
  simp only [encodeEntries_ofMembers]
  cases hv : validReceiptText (.values (ofMembers members)) 32 65536 with
  | none =>
    have hno : ¬ (Doc.FitsMembers members 31 ∧ Doc.nodesMembers members + 2 ≤ 65536) := by
      rw [← hvalid, hv]
      simp
    simp only [reduceCtorEq, false_iff, Bounded]
    tauto
  | some left =>
    obtain ⟨hfit, hnodes⟩ := hvalid.mp ⟨left, hv⟩
    by_cases hsize : encodedLength lib (.obj members) > 2 ^ 20
    · simp only [if_pos hsize, reduceCtorEq, false_iff, Bounded]
      omega
    · simp only [if_neg hsize, if_pos (hfits.mpr hfit), Except.ok.injEq, Bounded, hfit, hnodes,
        Nat.not_lt.mp hsize, true_and, and_self]

/-! ## What sealing accepts -/

/-- The canonical token of a number. -/
def canonicalToken (n : Spelling) : Spelling := (canonicalForm n).spelling

/-- A response is sealed, with the copies of its object key and its body. -/
structure Seals (lib : Library) (r : MutationResponse) (s : Sealed)
    (key body : List (String × Document)) : Prop where
  status : r.status = 200 ∨ r.status = 201 ∨ r.status = 204
  copiedKey : receiptObject lib r.objectKey = .ok key
  keyLength : 1 ≤ key.length ∧ key.length ≤ 16
  sealedKey : List.Forall₂ (fun a b => sealKeyMember a = some b) key s.objectKey
  copiedBody : receiptObject lib (some (r.body.getD [])) = .ok body
  noContent : r.status = 204 → body.length = 0
  readable : Doc.ForallMembers Readable body
  sealedBody : Doc.mapMembers canonicalToken body = s.body
  validHeaders : ∀ h ∈ r.headers.entries, validHeader lib h.1 h.2 = true
  sameStatus : s.status = r.status
  sealedHeaders : s.headers = sealHeaders r.status r.headers

lemma elim_eq_ok_iff {ε α : Type} {x : Option α} {e : ε} {a : α} :
    x.elim (Except.error e) Except.ok = .ok a ↔ x = some a := by
  cases x <;> simp

/-- An object has a canonical form when each of its numbers can be read. -/
lemma canonicalOperation_eq_ok_iff :
    canonicalOperation l = .ok l' ↔
      Doc.ForallMembers Readable l ∧ Doc.mapMembers canonicalToken l = l' :=
  Doc.traverseMembers_eq_ok_iff canonicalNumber_eq_ok_iff l l'

/-- What sealing accepts and returns. -/
lemma sealMutationResponse_eq_ok_iff (lib : Library) (r : MutationResponse) (s : Sealed) :
    sealMutationResponse lib r = .ok s ↔ ∃ key body, Seals lib r s key body := by
  simp only [sealMutationResponse, bind_eq_ok, refuseIf_eq_ok, mapError_eq_ok, elim_eq_ok_iff,
    mapM_eq_some_iff, canonicalOperation_eq_ok_iff]
  constructor
  · rintro ⟨_, hstatus, key, hkey, _, hlength, key', hsealed, body, hbody, _, hempty, body',
      ⟨hread, rfl⟩, _, hheaders, hs⟩
    cases hs
    refine ⟨key, body, ⟨by tauto, hkey, by omega, hsealed, hbody, fun h => ?_, hread, rfl, ?_, rfl,
      rfl⟩⟩
    · by_contra hne
      exact hempty ⟨h, hne⟩
    · intro h hmem
      rw [← Bool.not_eq_false]
      exact fun hfalse => hheaders ⟨h, hmem, hfalse⟩
  · rintro ⟨key, body, h⟩
    refine ⟨(), ?_, key, h.copiedKey, (), ?_, s.objectKey, h.sealedKey, body, h.copiedBody, (),
      fun hne => hne.2 (h.noContent hne.1), s.body, ⟨h.readable, h.sealedBody⟩, (), ?_, ?_⟩
    · have := h.status
      tauto
    · have := h.keyLength
      omega
    · rintro ⟨x, hmem, hfalse⟩
      rw [h.validHeaders x hmem] at hfalse
      cases hfalse
    · rw [← h.sealedHeaders, ← h.sameStatus]
      rfl

lemma receiptObject_fits {v : Option (List (String × GoValue))} {members : List (String × Document)}
    (h : receiptObject lib v = .ok members) : Doc.FitsMembers members 31 := by
  cases v with
  | none => cases h
  | some entries =>
    simp only [receiptObject] at h
    split at h
    · cases h
    · split at h
      · cases h
      · split_ifs at h with hsize hfits
        cases h
        rw [Doc.Fits] at hfits
        exact hfits.2

/-! ## Respelled responses -/

/-- Equal up to the spelling of numbers. -/
structure Sealed.Respells (s' s : Sealed) : Prop where
  status : s'.status = s.status
  headers : s'.headers = s.headers
  body : Doc.mapMembers Spelling.value s'.body = Doc.mapMembers Spelling.value s.body
  objectKey : Doc.mapMembers Spelling.value s'.objectKey = Doc.mapMembers Spelling.value s.objectKey

/-- The numbers and the documents of a response are within the bounds that sealing has for its
input. -/
structure Sealed.Storable (lib : Library) (s : Sealed) : Prop where
  body_numbers : Doc.ForallMembers Readable s.body
  key_numbers : Doc.ForallMembers Readable s.objectKey
  body_bounded : Bounded lib s.body
  key_bounded : Bounded lib s.objectKey

section Respelled

variable {M : Type} {f : Spelling → M} {l l' : List (String × Document)}

variable (h : Doc.mapMembers f l = Doc.mapMembers f l')

include h

lemma length_of_mapMembers_eq : l.length = l'.length := by
  have := congrArg List.length h
  simpa [Doc.mapMembers_eq] using this

lemma fitsMembers_of_mapMembers_eq {depth : ℤ} (hfits : Doc.FitsMembers l' depth) :
    Doc.FitsMembers l depth := by
  rw [← Doc.fitsMembers_mapMembers f] at hfits ⊢
  rwa [h]

lemma forall₂_of_mapMembers_eq :
    List.Forall₂ (fun a b => a.1 = b.1 ∧ Doc.map f a.2 = Doc.map f b.2) l l' := by
  rw [Doc.mapMembers_eq, Doc.mapMembers_eq, ← forall₂_eq_eq_eq, forall₂_map_left_iff,
    forall₂_map_right_iff] at h
  exact h.imp fun a b hab => Prod.mk.inj hab

end Respelled

/-- A member of a sealed object key. -/
inductive KeyMember : String × Document → Prop
  | str {name s : String} (valid : Models.validIdentifier name) (short : s.utf8ByteSize ≤ 1024) :
      KeyMember (name, .str s)
  | num {name : String} {n m : Spelling} (valid : Models.validIdentifier name)
      (canonical : canonicalKeyNumber n = .ok m) : KeyMember (name, .num m)

lemma keyMember_of_sealKeyMember (h : sealKeyMember a = some b) :
    KeyMember b ∧ Doc.Forall Readable a.2 := by
  obtain ⟨name, d⟩ := a
  cases d with
  | str s =>
    simp only [sealKeyMember] at h
    split_ifs at h with hvalid
    cases h
    exact ⟨.str hvalid.1 hvalid.2, trivial⟩
  | num n =>
    simp only [sealKeyMember] at h
    split_ifs at h with hvalid
    cases hn : canonicalKeyNumber n with
    | error e =>
      rw [hn] at h
      cases h
    | ok m =>
      rw [hn] at h
      cases h
      exact ⟨.num hvalid hn, ((canonicalKeyNumber_eq_ok_iff n m).mp hn).1⟩
  | null => cases h
  | bool _ => cases h
  | arr _ => cases h
  | obj _ => cases h

/-- A respelled member of a sealed key is sealed as that member. -/
lemma sealKeyMember_of_respelled (hb : KeyMember b)
    (h : a.1 = b.1 ∧ Doc.map Spelling.value a.2 = Doc.map Spelling.value b.2)
    (hread : Doc.Forall Readable a.2) : sealKeyMember a = some b := by
  obtain ⟨name, d⟩ := a
  obtain ⟨hname, hd⟩ := h
  cases hb with
  | @str name' t hvalid hshort =>
    obtain rfl : name = name' := hname
    cases d <;> simp only [Doc.map, reduceCtorEq, Doc.str.injEq] at hd
    subst hd
    simp only [sealKeyMember, if_pos (And.intro hvalid hshort)]
  | @num name' n m hvalid hcanon =>
    obtain rfl : name = name' := hname
    cases d <;> simp only [Doc.map, reduceCtorEq, Doc.num.injEq] at hd
    simp only [sealKeyMember, if_pos hvalid, canonicalKeyNumber_of_value_eq hcanon hd hread]

lemma forall₂_sealKeyMember (hmembers : ∀ b ∈ l, KeyMember b)
    (hvalue : Doc.mapMembers Spelling.value l' = Doc.mapMembers Spelling.value l)
    (hread : Doc.ForallMembers Readable l') :
    List.Forall₂ (fun a b => sealKeyMember a = some b) l' l := by
  rw [Doc.forallMembers_iff] at hread
  refine forall₂_iff_zip.mpr ⟨length_of_mapMembers_eq hvalue, ?_⟩
  intro a b hab
  obtain ⟨ha, hb⟩ := of_mem_zip hab
  have hpair := (forall₂_iff_zip.mp (forall₂_of_mapMembers_eq hvalue)).2 hab
  exact sealKeyMember_of_respelled (hmembers b hb) hpair (hread a ha)

/-- The members of a sealed key. -/
lemma keyMember_of_forall₂ (h : List.Forall₂ (fun a b => sealKeyMember a = some b) l l') :
    (∀ b ∈ l', KeyMember b) ∧ Doc.ForallMembers Readable l := by
  refine ⟨fun b hb => ?_, (Doc.forallMembers_iff _ _).mpr fun a ha => ?_⟩
  · obtain ⟨a, -, ha⟩ := exists_of_forall₂_right h hb
    exact (keyMember_of_sealKeyMember ha).1
  · obtain ⟨b, -, hb⟩ := exists_of_forall₂_left h ha
    exact (keyMember_of_sealKeyMember hb).2

lemma fitsMembers_of_keyMember (h : ∀ b ∈ l, KeyMember b) : Doc.FitsMembers l 31 := by
  induction l with
  | nil => exact trivial
  | cons b l ih =>
    rw [forall_mem_cons] at h
    refine ⟨?_, ih h.2⟩
    cases h.1 <;> norm_num [Doc.Fits]

lemma canonicalToken_eq_iff (n m : Spelling) :
    canonicalToken n = canonicalToken m ↔ n.value = m.value := by
  rw [← canonicalForm_eq_iff]
  exact ⟨spelling_injective, congrArg _⟩

lemma value_canonicalToken (n : Spelling) : (canonicalToken n).value = n.value := by
  rw [canonicalToken, Canonical.value_spelling, value_canonicalForm]

/-- A respelled sealed body has that body as its canonical form. -/
lemma mapMembers_canonicalToken_of_respelled {body body' : List (String × Document)}
    (h : Doc.mapMembers Spelling.value body' =
      Doc.mapMembers Spelling.value (Doc.mapMembers canonicalToken body)) :
    Doc.mapMembers canonicalToken body' = Doc.mapMembers canonicalToken body := by
  have hmap : Doc.mapMembers Spelling.value (Doc.mapMembers canonicalToken body) =
      Doc.mapMembers Spelling.value body := by
    have hcomp : Spelling.value ∘ canonicalToken = Spelling.value :=
      funext value_canonicalToken
    simp [Doc.mapMembers_eq, Doc.map_map, hcomp]
  rw [hmap] at h
  exact (Doc.mapMembers_eq_mapMembers_iff canonicalToken_eq_iff body' body).mpr h

lemma sealHeaders_sealHeaders (status : ℤ) (headers : FinMap String String) :
    sealHeaders status (sealHeaders status headers) = sealHeaders status headers := by
  unfold sealHeaders
  split_ifs
  · simp only [FinMap.set, FinMap.setEntry_setEntry]
  · rfl

lemma validHeader_sealHeaders {status : ℤ} {headers : FinMap String String}
    (h : ∀ e ∈ headers.entries, validHeader lib e.1 e.2 = true) :
    ∀ e ∈ (sealHeaders status headers).entries, validHeader lib e.1 e.2 = true := by
  intro e he
  unfold sealHeaders at he
  split_ifs at he
  · rcases FinMap.mem_setEntry he with rfl | he
    · have hshort : ¬ ("application/json".utf8ByteSize > 4096) := by decide
      simp [validHeader, hshort]
    · exact h e he
  · exact h e he

/-- **Sealing a respelled sealed response.** It gives the sealed response back exactly when the
respelled one is within the bounds on the input. -/
theorem sealMutationResponse_reopen_iff {r : MutationResponse} {s s' : Sealed}
    (h : sealMutationResponse lib r = .ok s) (hs : s'.Respells s) :
    sealMutationResponse lib s'.reopen = .ok s ↔ s'.Storable lib := by
  obtain ⟨key, body, hseals⟩ := (sealMutationResponse_eq_ok_iff lib r s).mp h
  rw [sealMutationResponse_eq_ok_iff]
  constructor
  · rintro ⟨key', body', h'⟩
    obtain ⟨hkeyBound, -, rfl⟩ := (receiptObject_ofMembers_iff lib _ _).mp h'.copiedKey
    obtain ⟨hbodyBound, -, rfl⟩ := (receiptObject_ofMembers_iff lib _ _).mp h'.copiedBody
    exact ⟨h'.readable, (keyMember_of_forall₂ h'.sealedKey).2, hbodyBound, hkeyBound⟩
  · intro hstorable
    have hmembers := (keyMember_of_forall₂ hseals.sealedKey).1
    have hkeyLength : s'.objectKey.length = key.length := by
      rw [length_of_mapMembers_eq hs.objectKey, hseals.sealedKey.length_eq]
    have hbodyLength : s'.body.length = body.length := by
      rw [length_of_mapMembers_eq hs.body, ← hseals.sealedBody, Doc.mapMembers_eq, length_map]
    have hkeyFits : Doc.FitsMembers s'.objectKey 31 :=
      fitsMembers_of_mapMembers_eq hs.objectKey (fitsMembers_of_keyMember hmembers)
    have hbodyFits : Doc.FitsMembers s'.body 31 := by
      refine fitsMembers_of_mapMembers_eq hs.body ?_
      rw [← hseals.sealedBody, Doc.fitsMembers_mapMembers]
      exact receiptObject_fits hseals.copiedBody
    have hstatus : s'.reopen.status = r.status := hs.status.trans hseals.sameStatus
    have hheaders : s'.reopen.headers = sealHeaders r.status r.headers :=
      hs.headers.trans hseals.sealedHeaders
    refine ⟨s'.objectKey, s'.body, ?_⟩
    exact
      { status := by rw [hstatus]; exact hseals.status
        copiedKey := (receiptObject_ofMembers_iff lib _ _).mpr
          ⟨hstorable.key_bounded, hkeyFits, rfl⟩
        keyLength := hkeyLength ▸ hseals.keyLength
        sealedKey := forall₂_sealKeyMember hmembers hs.objectKey hstorable.key_numbers
        copiedBody := (receiptObject_ofMembers_iff lib _ _).mpr
          ⟨hstorable.body_bounded, hbodyFits, rfl⟩
        noContent := fun h204 => hbodyLength.trans (hseals.noContent (hstatus ▸ h204))
        readable := hstorable.body_numbers
        sealedBody := by
          have hbody := hs.body
          rw [← hseals.sealedBody] at hbody ⊢
          exact mapMembers_canonicalToken_of_respelled hbody
        validHeaders := by
          rw [hheaders]
          exact validHeader_sealHeaders hseals.validHeaders
        sameStatus := hs.status.symm
        sealedHeaders := by
          rw [hstatus, hheaders, sealHeaders_sealHeaders, hseals.sealedHeaders] }

/-! ## Replay -/

/-- **Canonical numbers and replay.** `canonicalNumber` keeps the value and gives two numbers one
text exactly when they are equal; a sealed response, however its numbers are respelled, is sealed
as itself exactly when the respelled response is within the bounds on the input. -/
theorem sealed_response_replays_iff (lib : Library) :
    (∀ n m, canonicalNumber n = .ok m → m.value = n.value) ∧
    (∀ n m a b, canonicalNumber n = .ok a → canonicalNumber m = .ok b →
      (a.text = b.text ↔ n.value = m.value)) ∧
    ∀ (r : MutationResponse) (s s' : Sealed), sealMutationResponse lib r = .ok s →
      s'.Respells s → (sealMutationResponse lib s'.reopen = .ok s ↔ s'.Storable lib) := by
  refine ⟨?_, ?_, fun r s s' h hs => sealMutationResponse_reopen_iff h hs⟩
  · intro n m h
    obtain ⟨-, rfl⟩ := (canonicalNumber_eq_ok_iff n m).mp h
    exact value_canonicalToken n
  · intro n m a b ha hb
    obtain ⟨-, rfl⟩ := (canonicalNumber_eq_ok_iff n a).mp ha
    obtain ⟨-, rfl⟩ := (canonicalNumber_eq_ok_iff m b).mp hb
    rw [← canonicalToken_eq_iff]
    exact ⟨Spelling.text_injective, congrArg _⟩

/-- Strings without characters that are escaped, and any relative location. -/
def plainLibrary : Library where
  quoted := fun s => s.utf8ByteSize + 2
  safeNext := fun _ => true

/-- The token `1.5`. -/
def oneAndHalf : Spelling where
  negative := false
  integer := ascii "1"
  fraction := some (ascii "5")
  exponent := none
  integer_digits := by decide +kernel
  integer_ne_nil := by decide +kernel
  integer_head := fun h => absurd h (by decide +kernel)
  fraction_digits := fun f hf => by
    rw [Option.mem_some_iff] at hf
    subst hf
    decide +kernel

/-- The token `1.5e-2147483648`. -/
def deepFraction : Spelling :=
  { oneAndHalf with
    exponent := some
      ⟨false, some true, ascii "2147483648", by decide +kernel, by decide +kernel⟩ }

/-- A created object with one number in the body. -/
def numberResponse (n : Spelling) : MutationResponse where
  status := 201
  headers := FinMap.empty
  body := some [("ratio", .num n)]
  objectKey := some [("id", .str "7")]

/-- The sealed form of such a response. -/
def sealedNumber (n : Spelling) : Sealed where
  status := 201
  headers := FinMap.empty.set "Content-Type" "application/json"
  body := [("ratio", .num n)]
  objectKey := [("id", .str "7")]

lemma sealedNumber_respells (n : Spelling) :
    (sealedNumber n).Respells (sealedNumber (canonicalToken n)) where
  status := rfl
  headers := rfl
  body := by simp [sealedNumber, Doc.mapMembers, Doc.map, value_canonicalToken]
  objectKey := rfl

/-- `1.5` is sealed as `15e-1`, stored as `1.5`, and sealed as `15e-1` again. -/
theorem one_and_half_replays :
    sealMutationResponse plainLibrary (sealedNumber oneAndHalf).reopen =
      .ok (sealedNumber (canonicalToken oneAndHalf)) :=
  ((sealed_response_replays_iff plainLibrary).2.2 (numberResponse oneAndHalf) _ _ rfl
    (sealedNumber_respells oneAndHalf)).mpr
    { body_numbers := ⟨(by decide +kernel : Readable oneAndHalf), trivial⟩
      key_numbers := ⟨trivial, trivial⟩
      body_bounded := ⟨by decide +kernel, by decide +kernel⟩
      key_bounded := ⟨by decide +kernel, by decide +kernel⟩ }

/-- `1.5e-2147483648` is sealed as `15e-2147483649`, whose exponent does not fit 32 bits: the sealed
response itself cannot be sealed again. -/
theorem deep_fraction_is_refused :
    sealMutationResponse plainLibrary (numberResponse deepFraction) =
      .ok (sealedNumber (canonicalToken deepFraction)) ∧
    (sealedNumber (canonicalToken deepFraction)).Respells
      (sealedNumber (canonicalToken deepFraction)) ∧
    sealMutationResponse plainLibrary (sealedNumber (canonicalToken deepFraction)).reopen =
      .error "api: invalid mutation response" :=
  ⟨rfl, ⟨rfl, rfl, rfl, rfl⟩, rfl⟩

end Gogo.Api
