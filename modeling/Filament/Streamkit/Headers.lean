import Filament.Lib.Except
import Filament.Lib.Wire

/-!
# Message headers

The ordered binary encoding of a list of headers, version 1.

* `encodeHeaders`, `decodeHeaders` : the two directions;
* `Header.Fits`, `Header.decoded` : what is encoded, and what of it is read back;
* **`header_codec_exact`** : each direction undoes the other, and decoding allocates no more than its
  input backs.
-/

namespace Filament.Streamkit

open Wire List Except

/-- A header; the value is `none` where the source has a nil slice. -/
structure Header where
  key : Bytes
  value : Option Bytes
  null : Bool
  deriving DecidableEq, Repr

/-- `ErrInvalidEnvelope`. -/
inductive HeaderError where
  | invalidEnvelope
  deriving DecidableEq, Repr

def headerEncodingVersion : UInt8 := 1

def maxUint32 : ℕ := 2 ^ 32 - 1

/-- `headerLength`. -/
def headerLength (n : ℕ) : Except HeaderError ℕ :=
  if maxUint32 < n then .error .invalidEnvelope else .ok n

/-! ### Encoding -/

/-- The bytes of a value. -/
def Header.bytes (h : Header) : Bytes := h.value.getD []

/-- The flag of a header. -/
def Header.flag (h : Header) : UInt8 := if h.null then 1 else 0

/-- The body of the loop of `EncodeHeaders`. -/
def encodeHeader (h : Header) : Except HeaderError Bytes := do
  Except.require (¬(h.null = true ∧ 0 < h.bytes.length)) .invalidEnvelope
  let keySize ← headerLength h.key.length
  let valueSize ← headerLength h.bytes.length
  return u32 keySize ++ h.key ++ [h.flag] ++ u32 valueSize ++ h.bytes

/-- `EncodeHeaders`; a nil list is `none`. -/
def encodeHeaders : Option (List Header) → Except HeaderError Bytes
  | none => .ok [headerEncodingVersion, 0]
  | some headers => do
    let count ← headerLength headers.length
    let entries ← headers.mapM encodeHeader
    return [headerEncodingVersion, 1] ++ u32 count ++ entries.flatten

/-! ### Decoding -/

/-- One header. -/
def readHeader : Read Header := do
  let key ← readBlock
  let flag ← readByte
  require (flag ≤ 1)
  let value ← readBlock
  require ¬(flag = 1 ∧ 0 < value.length)
  return ⟨key, if flag = 1 then none else some value, decide (flag = 1)⟩

/-- What `DecodeHeaders` returns, the bytes it has allocated and the headers it has made room for. -/
structure Decoded where
  result : Except HeaderError (Option (List Header))
  allocated : ℕ
  slots : ℕ

def rejected (allocated slots : ℕ) : Decoded := ⟨.error .invalidEnvelope, allocated, slots⟩

/-- The least size of an encoded header. -/
def headerSize : ℕ := 9

/-- `DecodeHeaders`, once the version and the presence are read. -/
def decodeList (data : Bytes) : Decoded :=
  match readU32 ⟨data, 0⟩ with
  | (none, _) => rejected 0 0
  | (some count, r) =>
    if r.rest.length / headerSize < count then rejected 0 0
    else
      match readMany readHeader count r with
      | (none, r) => rejected r.allocated count
      | (some headers, r) =>
        if r.rest.length ≠ 0 then rejected r.allocated count
        else ⟨.ok (some headers), r.allocated, count⟩

/-- `DecodeHeaders`. -/
def decodeHeaders : Bytes → Decoded
  | version :: presence :: data =>
    if version ≠ headerEncodingVersion ∨ 1 < presence then rejected 0 0
    else if presence = 0 then (if data.length ≠ 0 then rejected 0 0 else ⟨.ok none, 0, 0⟩)
    else decodeList data
  | _ => rejected 0 0

/-! ### One header -/

/-- What is encoded: no value under a null, and lengths of 32 bits. -/
structure Header.Fits (h : Header) : Prop where
  null : h.null = true → h.bytes = []
  key : h.key.length < 2 ^ 32
  value : h.bytes.length < 2 ^ 32

/-- A header as it is read back: nil under a null, and bytes otherwise. -/
def Header.decoded (h : Header) : Header := { h with value := if h.null then none else some h.bytes }

/-- The encoding of a header that fits. -/
def Header.encoding (h : Header) : Bytes := block h.key ++ [h.flag] ++ block h.bytes

theorem headerLength_eq_ok {n m : ℕ} : headerLength n = .ok m ↔ n < 2 ^ 32 ∧ n = m := by
  unfold headerLength maxUint32
  split_ifs <;> simp <;> omega

variable {h : Header}

theorem Header.bytes_eq_nil :
    ¬(h.null = true ∧ 0 < h.bytes.length) ↔ (h.null = true → h.bytes = []) := by
  rw [not_and, Nat.not_lt, Nat.le_zero, length_eq_zero_iff]

theorem encodeHeader_eq_ok {b : Bytes} : encodeHeader h = .ok b ↔ h.Fits ∧ h.encoding = b := by
  rw [encodeHeader, require_bind_eq_ok, Header.bytes_eq_nil]
  simp only [bind_eq_ok, headerLength_eq_ok, pure_eq_ok_iff]
  constructor
  · rintro ⟨hnull, _, ⟨hkey, rfl⟩, _, ⟨hvalue, rfl⟩, rfl⟩
    exact ⟨⟨hnull, hkey, hvalue⟩, by simp [Header.encoding, block]⟩
  · rintro ⟨hfits, rfl⟩
    exact ⟨hfits.null, _, ⟨hfits.key, rfl⟩, _, ⟨hfits.value, rfl⟩, by simp [Header.encoding, block]⟩

@[simp] theorem Header.decoded_encoding (h : Header) (hfits : h.Fits) :
    h.decoded.encoding = h.encoding := by
  cases hnull : h.null with
  | false => simp [Header.decoded, Header.encoding, Header.bytes, Header.flag, hnull]
  | true =>
    have hbytes := hfits.null hnull
    simp only [Header.encoding, Header.flag, hbytes]
    simp [Header.decoded, Header.bytes, hnull]

theorem Header.Fits.decoded (hfits : h.Fits) : h.decoded.Fits ∧ h.decoded.decoded = h.decoded := by
  cases hnull : h.null with
  | false =>
    refine ⟨⟨fun htrue => ?_, hfits.key, ?_⟩, ?_⟩
    · simp [Header.decoded, hnull] at htrue
    · simpa [Header.decoded, Header.bytes, hnull] using hfits.value
    · simp [Header.decoded, Header.bytes, hnull]
  | true => exact ⟨⟨fun _ => by simp [Header.decoded, Header.bytes, hnull], hfits.key,
      by simp [Header.decoded, Header.bytes, hnull]⟩, by simp [Header.decoded, hnull]⟩

/-- A header is read back from its encoding, and only from it. -/
theorem exact_readHeader :
    Exact readHeader Header.encoding fun h => h.Fits ∧ h.decoded = h where
  read := by
    intro r r' h hread
    obtain ⟨key, r₁, hkey, hread⟩ := bind_eq_some.1 hread
    obtain ⟨flag, r₂, hflag, hread⟩ := bind_eq_some.1 hread
    obtain ⟨_, r₃, hrequire, hread⟩ := bind_eq_some.1 hread
    obtain ⟨value, r₄, hvalue, hread⟩ := bind_eq_some.1 hread
    obtain ⟨_, r₅, hrequire', hread⟩ := bind_eq_some.1 hread
    obtain ⟨rfl, rfl⟩ := pure_eq_some.1 hread
    obtain ⟨hbit, rfl⟩ := require_eq_some.1 hrequire
    obtain ⟨hempty, rfl⟩ := require_eq_some.1 hrequire'
    obtain ⟨hkeyLength, hrest₁⟩ := exact_readBlock.read hkey
    obtain ⟨-, hrest₂⟩ := exact_readByte.read hflag
    obtain ⟨hvalueLength, hrest₃⟩ := exact_readBlock.read hvalue
    have hrest : r.rest = block key ++ [flag] ++ block value ++ r₄.rest := by
      rw [hrest₁, hrest₂, hrest₃]
      simp
    rw [hrest]
    by_cases hone : flag = 1
    · obtain rfl : value = [] := by simpa [hone] using hempty
      subst hone
      exact ⟨⟨⟨fun _ => rfl, hkeyLength, hvalueLength⟩, rfl⟩, rfl⟩
    have hzero : flag = 0 := by
      have hle : flag.toNat ≤ 1 := hbit
      have hne : flag.toNat ≠ 1 := fun heq => hone (UInt8.toNat_inj.1 heq)
      exact UInt8.toNat_inj.1 (show flag.toNat = 0 by omega)
    subst hzero
    exact ⟨⟨⟨nofun, hkeyLength, hvalueLength⟩, rfl⟩, rfl⟩
  written := by
    rintro h ⟨hfits, hdecoded⟩ rest n
    obtain ⟨n₁, h₁⟩ := exact_readBlock.written hfits.key ([h.flag] ++ block h.bytes ++ rest) n
    obtain ⟨n₂, h₂⟩ := exact_readBlock.written hfits.value rest n₁
    refine ⟨n₂, bind_eq_some.2 ⟨h.key, ⟨[h.flag] ++ block h.bytes ++ rest, n₁⟩, ?_,
      bind_eq_some.2 ⟨h.flag, ⟨block h.bytes ++ rest, n₁⟩, rfl,
        bind_eq_some.2 ⟨(), _, require_eq_some.2 ⟨?_, rfl⟩, bind_eq_some.2 ⟨h.bytes, _, h₂,
          bind_eq_some.2 ⟨(), _, require_eq_some.2 ⟨?_, rfl⟩, pure_eq_some.2 ⟨?_, rfl⟩⟩⟩⟩⟩⟩⟩
    · rw [Header.encoding, append_assoc, append_assoc, ← append_assoc [h.flag]]
      exact h₁
    · unfold Header.flag
      split_ifs <;> decide
    · rintro ⟨hflag, hpos⟩
      have hnull : h.null = true := by
        by_contra hnull
        simp [Header.flag, hnull] at hflag
      rw [hfits.null hnull] at hpos
      simp at hpos
    · rw [← hdecoded]
      cases hnull : h.null <;> simp [Header.decoded, Header.flag, Header.bytes, hnull]

theorem spends_readHeader : Spends readHeader :=
  spends_readBlock.bind fun _ => spends_readByte.bind fun _ => (spends_require _).bind fun _ =>
    spends_readBlock.bind fun _ => (spends_require _).bind spends_pure

theorem headerSize_le_encoding (h : Header) : headerSize ≤ h.encoding.length := by
  simp only [Header.encoding, block, length_append, length_u32, length_singleton, headerSize]
  omega

theorem Header.decoded_eq (h : Header) (hnull : h.null = true → h.value = none) :
    h.decoded = h ∨ h.null = false ∧ h.value = none ∧ h.decoded = { h with value := some [] } := by
  obtain ⟨key, value, null⟩ := h
  cases null with
  | true =>
    obtain rfl : value = none := hnull rfl
    exact .inl rfl
  | false =>
    cases value with
    | none => exact .inr ⟨rfl, rfl, rfl⟩
    | some b => exact .inl rfl

/-! ### Lists of headers -/

/-- The encoding of a list that fits. -/
def listEncoding (headers : List Header) : Bytes :=
  u32 headers.length ++ headers.flatMap Header.encoding

variable {headers : List Header} {data : Bytes}

theorem mapM_encodeHeader {entries : List Bytes} :
    headers.mapM encodeHeader = .ok entries ↔
      (∀ h ∈ headers, h.Fits) ∧ headers.map Header.encoding = entries := by
  rw [mapM_eq_ok]
  simp only [encodeHeader_eq_ok]
  induction headers generalizing entries with
  | nil => simp [eq_comm]
  | cons h headers ih =>
    cases entries with
    | nil => simp
    | cons b entries =>
      rw [forall₂_cons, ih, forall_mem_cons, map_cons, cons.injEq]
      tauto

theorem encodeHeaders_eq_ok :
    encodeHeaders (some headers) = .ok data ↔
      (headers.length < 2 ^ 32 ∧ ∀ h ∈ headers, h.Fits) ∧
        headerEncodingVersion :: 1 :: listEncoding headers = data := by
  simp only [encodeHeaders, bind_eq_ok, headerLength_eq_ok, mapM_encodeHeader, pure_eq_ok_iff]
  constructor
  · rintro ⟨_, ⟨hlength, rfl⟩, _, ⟨hfits, rfl⟩, rfl⟩
    exact ⟨⟨hlength, hfits⟩, by simp [listEncoding, flatMap_def]⟩
  · rintro ⟨⟨hlength, hfits⟩, rfl⟩
    exact ⟨_, ⟨hlength, rfl⟩, _, ⟨hfits, rfl⟩, by simp [listEncoding, flatMap_def]⟩

theorem le_length_flatMap_encoding (headers : List Header) :
    headers.length * headerSize ≤ (headers.flatMap Header.encoding).length := by
  induction headers with
  | nil => simp
  | cons h headers ih =>
    have := headerSize_le_encoding h
    rw [length_cons, flatMap_cons, length_append, Nat.succ_mul]
    omega

theorem decodeList_listEncoding (hlength : headers.length < 2 ^ 32)
    (hfits : ∀ h ∈ headers, h.Fits ∧ h.decoded = h) :
    (decodeList (listEncoding headers)).result = .ok (some headers) := by
  obtain ⟨m, hread⟩ := (exact_readMany exact_readHeader headers.length).written ⟨rfl, hfits⟩ [] 0
  rw [append_nil] at hread
  have hroom : ¬(headers.flatMap Header.encoding).length / headerSize < headers.length := by
    rw [Nat.not_lt, Nat.le_div_iff_mul_le (by decide)]
    exact le_length_flatMap_encoding headers
  unfold decodeList listEncoding
  rw [readU32_u32 hlength]
  simp only [hroom, if_false, hread]
  rfl

theorem listEncoding_of_decodeList {headers : Option (List Header)}
    (h : (decodeList data).result = .ok headers) :
    ∃ hs, headers = some hs ∧ hs.length < 2 ^ 32 ∧ (∀ h ∈ hs, h.Fits) ∧ listEncoding hs = data := by
  unfold decodeList at h
  split at h
  · cases h
  · next count r hcount =>
    obtain ⟨hlt, hdata⟩ := exact_readU32.read hcount
    split_ifs at h
    · cases h
    split at h
    · cases h
    · next hs r' hread =>
      obtain ⟨⟨hlength, hfits⟩, hrest⟩ := (exact_readMany exact_readHeader count).read hread
      split_ifs at h with hend
      · cases h
      have hnil : r'.rest = [] := length_eq_zero_iff.1 (not_not.1 hend)
      refine ⟨hs, (ok.inj h).symm, hlength ▸ hlt, fun h hh => (hfits h hh).1, ?_⟩
      rw [listEncoding, hlength, show data = u32 count ++ r.rest from hdata, hrest, hnil,
        append_nil]

/-- Decoding a list allocates no more bytes than there are, and makes room for no more headers than the
bytes can hold. -/
theorem decodeList_allocates (data : Bytes) :
    (decodeList data).allocated ≤ data.length ∧ (decodeList data).slots * headerSize ≤ data.length := by
  have hcount := spends_readU32 ⟨data, 0⟩
  unfold decodeList
  split
  · exact ⟨Nat.zero_le _, by simp [rejected]⟩
  · next count r hread =>
    rw [hread] at hcount
    simp only [zero_add] at hcount
    split_ifs with hroom
    · exact ⟨Nat.zero_le _, by simp [rejected]⟩
    have hslots : count * headerSize ≤ data.length := by
      have hle := (Nat.le_div_iff_mul_le (by decide)).1 (not_lt.1 hroom)
      omega
    have hmany := spends_readMany spends_readHeader count r
    split
    · next r' hread' =>
      rw [hread'] at hmany
      exact ⟨show r'.allocated ≤ data.length by dsimp only at hmany; omega, hslots⟩
    · next hs r' hread' =>
      rw [hread'] at hmany
      have hallocated : r'.allocated ≤ data.length := by
        dsimp only at hmany
        omega
      split_ifs <;> exact ⟨hallocated, hslots⟩

/-! ### The codec -/

theorem decodeHeaders_list (data : Bytes) :
    decodeHeaders (headerEncodingVersion :: 1 :: data) = decodeList data := by
  simp [decodeHeaders, headerEncodingVersion]

/-- What `DecodeHeaders` accepts: the nil list, or the encoding of a list. -/
theorem decodeHeaders_eq_ok {headers : Option (List Header)}
    (h : (decodeHeaders data).result = .ok headers) :
    (headers = none ∧ data = [headerEncodingVersion, 0]) ∨
      ∃ rest, data = headerEncodingVersion :: 1 :: rest ∧ (decodeList rest).result = .ok headers := by
  unfold decodeHeaders at h
  split at h
  · next version presence rest =>
    split_ifs at h with hversion hpresence hrest
    · cases h
    · cases h
    · obtain ⟨rfl, hle⟩ : version = headerEncodingVersion ∧ ¬1 < presence := by
        rw [not_or, not_not] at hversion
        exact hversion
      obtain rfl : rest = [] := length_eq_zero_iff.1 (not_not.1 hrest)
      exact .inl ⟨(ok.inj h).symm, by rw [hpresence]⟩
    · obtain ⟨rfl, hle⟩ : version = headerEncodingVersion ∧ ¬1 < presence := by
        rw [not_or, not_not] at hversion
        exact hversion
      have hone : presence = 1 := by
        have hle' : presence.toNat ≤ 1 := not_lt.1 hle
        have hne : presence.toNat ≠ 0 := fun heq => hpresence (UInt8.toNat_inj.1 heq)
        exact UInt8.toNat_inj.1 (show presence.toNat = 1 by omega)
      exact .inr ⟨rest, by rw [hone], h⟩
  · cases h

/-- **The codec of headers is exact.**  Every list whose headers have no value under a null and whose
lengths are of 32 bits is encoded, and no other; what is encoded is decoded to the same list, a nil
value that is not null being read back as an empty one; what is decoded encodes to the same bytes; and
decoding, also of bytes it rejects, allocates no more bytes than there are and makes room for no more
headers than they can hold. -/
theorem header_codec_exact :
    (∀ headers : Option (List Header), (∃ data, encodeHeaders headers = .ok data) ↔
      ∀ hs ∈ headers, hs.length < 2 ^ 32 ∧ ∀ h ∈ hs, h.Fits) ∧
    (∀ headers data, encodeHeaders headers = .ok data →
      (decodeHeaders data).result = .ok (headers.map (List.map Header.decoded))) ∧
    (∀ h : Header, (h.null = true → h.value = none) →
      h.decoded = h ∨ h.null = false ∧ h.value = none ∧ h.decoded = { h with value := some [] }) ∧
    (∀ data headers, (decodeHeaders data).result = .ok headers → encodeHeaders headers = .ok data) ∧
    ∀ data, (decodeHeaders data).allocated ≤ data.length ∧
      (decodeHeaders data).slots * headerSize ≤ data.length := by
  refine ⟨fun headers => ?_, fun headers data h => ?_, Header.decoded_eq, fun data headers h => ?_,
    fun data => ?_⟩
  · cases headers with
    | none => exact iff_of_true ⟨_, rfl⟩ nofun
    | some hs =>
      constructor
      · rintro ⟨data, h⟩ _ ⟨⟩
        exact (encodeHeaders_eq_ok.1 h).1
      · exact fun h => ⟨_, encodeHeaders_eq_ok.2 ⟨h hs rfl, rfl⟩⟩
  · cases headers with
    | none =>
      cases h
      rfl
    | some hs =>
      obtain ⟨⟨hlength, hfits⟩, rfl⟩ := encodeHeaders_eq_ok.1 h
      have hsame : listEncoding hs = listEncoding (hs.map Header.decoded) := by
        rw [listEncoding, listEncoding, length_map, flatMap_map]
        congr 1
        exact flatMap_congr fun h hh => (h.decoded_encoding (hfits h hh)).symm
      rw [decodeHeaders_list, hsame]
      refine decodeList_listEncoding (by simpa using hlength) fun h hh => ?_
      obtain ⟨h', hh', rfl⟩ := mem_map.1 hh
      exact (hfits h' hh').decoded
  · rcases decodeHeaders_eq_ok h with ⟨rfl, rfl⟩ | ⟨rest, rfl, h⟩
    · rfl
    · obtain ⟨hs, rfl, hlength, hfits, rfl⟩ := listEncoding_of_decodeList h
      exact encodeHeaders_eq_ok.2 ⟨⟨hlength, hfits⟩, rfl⟩
  · unfold decodeHeaders
    split
    · next version presence rest =>
      have hlist := decodeList_allocates rest
      split_ifs
      · simp [rejected]
      · simp [rejected]
      · simp
      · simp only [length_cons]
        omega
    · simp [rejected]

example : (encodeHeaders (some [⟨[107], none, true⟩])).toOption =
    some [1, 1, 0, 0, 0, 1, 0, 0, 0, 1, 107, 1, 0, 0, 0, 0] := by
  decide

end Filament.Streamkit
