import Mathlib.Data.List.Nodup
import Filament.Lib.Except
import Filament.Lib.Sha256
import Filament.Lib.Text

/-!
# The identities of warehouse batches

A pipeline numbers the batches of each part from zero, and the warehouse sinks remember what they have
loaded by table, run, part and number: Redshift in a ledger of tokens, Snowflake by the names of the
files it has copied.  A resumed attempt of a bounded run opens a new pipeline under the same run id.

* `number`, `batches` : the batches of an attempt and of a run;
* `batchToken`, `stagedFile` : the identities, which hash texts that tell table, part and number;
* `redshiftApply`, `snowflakeWrite` : the sinks, two cases of `Sink.apply`;
* **`identities_distinct_iff`** : different rows have different identities exactly when the batches
  that two attempts send for one place of a part are the same.
-/

namespace Filament.WriteIdentity

open Except List Function

variable {ρ ι : Type} [DecidableEq ι]

/-- A chunk of rows from the builder of a part of a resource. -/
structure Chunk (ρ : Type) where
  resource : String
  part : ℕ
  rows : List ρ
  deriving DecidableEq, Repr

/-- A batch, with the qualified name of its table. -/
structure Batch (ρ : Type) where
  table : String
  part : ℕ
  seq : ℕ
  rows : List ρ
  deriving DecidableEq, Repr

section Number

variable (qualified : String → String)

/-- `slot.Chunk`: the slot of a builder counts its chunks. -/
def number (slots : String × ℕ → ℕ) : List (Chunk ρ) → List (Batch ρ)
  | [] => []
  | c :: cs =>
    let slot := (c.resource, c.part)
    ⟨qualified c.resource, c.part, slots slot, c.rows⟩ ::
      number (Function.update slots slot (slots slot + 1)) cs

/-- The batches of a run, attempt by attempt: every attempt counts from zero. -/
def batches (attempts : List (List (Chunk ρ))) : List (Batch ρ) :=
  attempts.flatMap (number qualified fun _ => 0)

/-- The rows of a part, chunk by chunk. -/
def chunksOf (slot : String × ℕ) (cs : List (Chunk ρ)) : List (List ρ) :=
  (cs.filter fun c => (c.resource, c.part) = slot).map Chunk.rows

/-- Where two attempts send rows for the same place of a part of a table, the rows are the same. -/
def Repeats (attempts : List (List (Chunk ρ))) : Prop :=
  ∀ a ∈ attempts, ∀ a' ∈ attempts, ∀ r r', qualified r = qualified r' → ∀ part n : ℕ,
    ∀ rows ∈ (chunksOf (r, part) a)[n]?, ∀ rows' ∈ (chunksOf (r', part) a')[n]?,
      rows ≠ [] → rows' ≠ [] → rows = rows'

end Number

/-! ### The sinks -/

/-- The ledger with the payload of each identity, and the batches that were loaded. -/
structure Sink (ι ρ : Type) where
  ledger : List (ι × String) := []
  loads : List (Batch ρ) := []
  deriving DecidableEq

/-- Loads a batch whose identity is new; a known one is a replay, of the same payload. -/
def Sink.apply (identity : Batch ρ → ι) (payload : List ρ → String) (s : Sink ι ρ) (b : Batch ρ) :
    Except (ι × String × String) (Sink ι ρ) :=
  if b.rows.isEmpty then .ok s
  else
    match s.ledger.lookup (identity b) with
    | none => .ok ⟨s.ledger ++ [(identity b, payload b.rows)], s.loads ++ [b]⟩
    | some previous =>
      if previous ≠ payload b.rows then .error (identity b, previous, payload b.rows) else .ok s

def sha256 (text : String) : List (BitVec 8) :=
  Sha256.sum256 (text.toByteArray.data.toList.map UInt8.toBitVec)

def seed (destination run : String) (part seq : ℕ) : String :=
  destination ++ "\x00" ++ run ++ "\x00" ++ toString part ++ "\x00" ++ toString seq

def batchToken (destination run : String) (part seq : ℕ) : String :=
  Text.hex (sha256 (seed destination run part seq))

def stagedFile (table run : String) (part seq : ℕ) : String × String :=
  ("@~/filament/" ++ Text.hex ((sha256 table).take 8) ++ "/" ++ Text.hex ((sha256 run).take 8) ++ "/",
    "part-" ++ String.ofList (Text.padded 6 part) ++
      "-seq-" ++ String.ofList (Text.padded 20 seq) ++ ".parquet")

/-- The Redshift sink's `Apply`: a token that was recorded with another payload is an error. -/
def redshiftApply (payloadHash : List ρ → String) (run : String) :
    Sink String ρ → Batch ρ → Except (String × String × String) (Sink String ρ) :=
  Sink.apply (fun b => batchToken b.table run b.part b.seq) payloadHash

/-- The Snowflake sink's `write`: the load history knows the names of files only, and a file that was
loaded is loaded no more. -/
def snowflakeWrite (run : String) :
    Sink (String × String) ρ → Batch ρ → Except ((String × String) × String × String)
      (Sink (String × String) ρ) :=
  Sink.apply (fun b => stagedFile b.table run b.part b.seq) fun _ => ""

/-- Batches with different rows have different identities. -/
def Distinguishes (identity : Batch ρ → ι) (sent : List (Batch ρ)) : Prop :=
  ∀ b ∈ sent, ∀ b' ∈ sent, b.rows ≠ [] → b'.rows ≠ [] → b.rows ≠ b'.rows → identity b ≠ identity b'

/-- Of any calls with batches of the run, in any order and repeated when a response is lost, none
fails, and the sink loads each batch that has rows, once. -/
def LoadsAll (apply : Sink ι ρ → Batch ρ → Except (ι × String × String) (Sink ι ρ))
    (sent : List (Batch ρ)) : Prop :=
  ∀ calls ⊆ sent, ∃ s, calls.foldlM apply {} = .ok s ∧ s.loads.Nodup ∧
    ∀ b, b ∈ s.loads ↔ b ∈ calls ∧ b.rows ≠ []

/-! ### The numbers of a run -/

section Places

variable {qualified : String → String} {attempts : List (List (Chunk ρ))} {slots : String × ℕ → ℕ}
  {cs : List (Chunk ρ)} {b : Batch ρ}

/-- The batches of a slot are its chunks, in order. -/
theorem mem_number : b ∈ number qualified slots cs ↔ ∃ r, qualified r = b.table ∧
    slots (r, b.part) ≤ b.seq ∧
      (chunksOf (r, b.part) cs)[b.seq - slots (r, b.part)]? = some b.rows := by
  induction cs generalizing slots with
  | nil => simp [number, chunksOf]
  | cons c cs ih =>
    obtain ⟨table, part, seq, rows⟩ := b
    simp only [number, mem_cons, ih, Batch.mk.injEq, chunksOf, filter_cons, decide_eq_true_eq]
    constructor
    · rintro (⟨rfl, rfl, rfl, rfl⟩ | ⟨r, rfl, hle, hget⟩)
      · exact ⟨c.resource, by simp⟩
      · refine ⟨r, rfl, ?_⟩
        by_cases hslot : (c.resource, c.part) = (r, part)
        · rw [hslot, update_self] at hle hget
          have hsub : seq - slots (r, part) = seq - (slots (r, part) + 1) + 1 := by omega
          exact ⟨by omega, by rw [if_pos hslot, hsub, map_cons, getElem?_cons_succ, hget]⟩
        · rw [update_of_ne (Ne.symm hslot)] at hle hget
          exact ⟨hle, by rw [if_neg hslot, hget]⟩
    · rintro ⟨r, rfl, hle, hget⟩
      by_cases hslot : (c.resource, c.part) = (r, part)
      · rw [if_pos hslot, map_cons] at hget
        obtain ⟨rfl, rfl⟩ := Prod.mk.inj hslot
        rcases Nat.eq_or_lt_of_le hle with rfl | hlt
        · exact .inl (by simpa [eq_comm] using hget)
        · have hsub : seq - slots (c.resource, c.part) =
            seq - (slots (c.resource, c.part) + 1) + 1 := by omega
          rw [hsub, getElem?_cons_succ] at hget
          exact .inr ⟨c.resource, rfl, by rwa [update_self], by rwa [update_self]⟩
      · rw [if_neg hslot] at hget
        refine .inr ⟨r, rfl, ?_⟩
        rw [update_of_ne (Ne.symm hslot)]
        exact ⟨hle, hget⟩

theorem mem_batches : b ∈ batches qualified attempts ↔ ∃ a ∈ attempts, ∃ r, qualified r = b.table ∧
    (chunksOf (r, b.part) a)[b.seq]? = some b.rows := by
  simp [batches, mem_number]

theorem repeats_iff : Repeats qualified attempts ↔ ∀ b ∈ batches qualified attempts,
    ∀ b' ∈ batches qualified attempts, b.rows ≠ [] → b'.rows ≠ [] →
      (b.table, b.part, b.seq) = (b'.table, b'.part, b'.seq) → b = b' := by
  simp only [mem_batches]
  constructor
  · rintro h ⟨table, part, seq, rows⟩ ⟨a, ha, r, hr, hget⟩ ⟨_, _, _, rows'⟩ ⟨a', ha', r', hr', hget'⟩
      hrows hrows' heq
    obtain ⟨rfl, rfl, rfl⟩ := by simpa using heq
    obtain rfl := h a ha a' ha' r r' (hr.trans hr'.symm) _ _ rows hget rows' hget' hrows hrows'
    rfl
  · intro h a ha a' ha' r r' hr part n rows hget rows' hget' hrows hrows'
    exact congrArg Batch.rows (h ⟨qualified r, part, n, rows⟩ ⟨a, ha, r, rfl, hget⟩
      ⟨qualified r, part, n, rows'⟩ ⟨a', ha', r', hr.symm, hget'⟩ hrows hrows' rfl)

end Places

/-! ### The identities -/

section Identities

variable {table table' : String} (run : String) {part part' seq seq' : ℕ}

/-- The text that is hashed tells the destination, the part and the number. -/
theorem seed_inj : seed table run part seq = seed table' run part' seq' ↔
    (table, part, seq) = (table', part', seq') := by
  have htext (table : String) (part seq : ℕ) : (seed table run part seq).toList =
      ((table.toList ++ '\x00' :: run.toList) ++ '\x00' :: Nat.toDigits 10 part) ++
        '\x00' :: Nat.toDigits 10 seq := by
    simp [seed, Nat.repr]
  have hzero (n : ℕ) : '\x00' ∉ Nat.toDigits 10 n := Text.notMem_toDigits (by decide) n
  rw [← String.toList_inj, htext, htext, Text.cut_right (hzero _) (hzero _),
    Text.cut_right (hzero _) (hzero _)]
  simp [Text.toDigits_inj, String.toList_inj, and_assoc]

/-- So does the name of the staged file, up to the hash of the table. -/
theorem stagedFile_inj : stagedFile table run part seq = stagedFile table' run part' seq' ↔
    ((sha256 table).take 8, part, seq) = ((sha256 table').take 8, part', seq') := by
  have htext (part seq : ℕ) : ("part-" ++ String.ofList (Text.padded 6 part) ++
      "-seq-" ++ String.ofList (Text.padded 20 seq) ++ ".parquet").toList =
      "part-".toList ++ (Text.padded 6 part ++ '-' ::
        ("seq-".toList ++ (Text.padded 20 seq ++ ".parquet".toList))) := by
    simp
  have hdash (w n : ℕ) : '-' ∉ Text.padded w n := Text.notMem_padded (by decide) w n
  rw [stagedFile, stagedFile, Prod.mk.injEq, Prod.mk.injEq]
  refine and_congr (by simp [Text.hex_inj]) ?_
  rw [← String.toList_inj, htext, htext, append_cancel_left_eq, Text.cut_left (hdash _ _) (hdash _ _)]
  simp [Text.padded_inj]

end Identities

/-! ### What is loaded -/

section Loads

variable {identity : Batch ρ → ι} (payload : List ρ → String) {sent done : List (Batch ρ)}

variable (identity) in
/-- The sink that has loaded `bs`. -/
def Sink.of (bs : List (Batch ρ)) : Sink ι ρ := ⟨bs.map fun b => (identity b, payload b.rows), bs⟩

variable (identity sent) in
/-- Batches that are to be loaded have one identity only when they are the same. -/
def Separates : Prop :=
  ∀ b ∈ sent, ∀ b' ∈ sent, b.rows ≠ [] → b'.rows ≠ [] → identity b = identity b' → b = b'

/-- A batch is loaded when its identity is new, and is taken for a replay when it was loaded. -/
theorem apply_of {b : Batch ρ} (h : ∀ b' ∈ done, b.rows ≠ [] → identity b = identity b' → b = b') :
    ∃ done', (Sink.of identity payload done).apply identity payload b =
        .ok (Sink.of identity payload done') ∧ (done.Nodup → done'.Nodup) ∧
      ∀ x, x ∈ done' ↔ x ∈ done ∨ x = b ∧ b.rows ≠ [] := by
  by_cases hb : b.rows = []
  · exact ⟨done, by simp [Sink.apply, hb], id, by simp [hb]⟩
  rw [Sink.apply, if_neg (by simpa using hb)]
  by_cases hdone : ∃ b' ∈ done, identity b = identity b'
  · obtain ⟨b', hb', heq⟩ := hdone
    obtain rfl := h b' hb' hb heq
    have hlookup : (Sink.of identity payload done).ledger.lookup (identity b) =
        some (payload b.rows) :=
      lookup_map_key hb' fun b' hb' => h b' hb' hb
    exact ⟨done, by simp [hlookup], id, by simp [hb']⟩
  · have hlookup : (Sink.of identity payload done).ledger.lookup (identity b) = none := by
      simpa [Sink.of, lookup_eq_none_iff] using hdone
    refine ⟨done ++ [b], by simp only [hlookup]; simp [Sink.of], fun hnodup => ?_, by simp [hb]⟩
    exact nodup_append_comm.1 (nodup_cons.2 ⟨fun hmem => hdone ⟨b, hmem, rfl⟩, hnodup⟩)

theorem foldlM_of (h : Separates identity sent) {calls : List (Batch ρ)} (hcalls : calls ⊆ sent)
    (hdone : ∀ b ∈ done, b ∈ sent ∧ b.rows ≠ []) :
    ∃ done', calls.foldlM (Sink.apply identity payload) (Sink.of identity payload done) =
        .ok (Sink.of identity payload done') ∧ (done.Nodup → done'.Nodup) ∧
      ∀ x, x ∈ done' ↔ x ∈ done ∨ x ∈ calls ∧ x.rows ≠ [] := by
  induction calls generalizing done with
  | nil => exact ⟨done, rfl, id, by simp⟩
  | cons b calls ih =>
    obtain ⟨hb, hcalls⟩ := cons_subset.1 hcalls
    have hknown : ∀ b' ∈ done, b.rows ≠ [] → identity b = identity b' → b = b' :=
      fun b' hb' hrows => h b hb b' (hdone b' hb').1 hrows (hdone b' hb').2
    obtain ⟨done', happly, hnodup, hmem⟩ := apply_of payload hknown
    have hdone' : ∀ x ∈ done', x ∈ sent ∧ x.rows ≠ [] := by
      intro x hx
      rcases (hmem x).1 hx with hx | ⟨rfl, hrows⟩
      · exact hdone x hx
      · exact ⟨hb, hrows⟩
    obtain ⟨done'', hfold, hnodup', hmem'⟩ := ih hcalls hdone'
    refine ⟨done'', ?_, hnodup' ∘ hnodup, fun x => ?_⟩
    · rw [foldlM_cons, happly, ok_bind, hfold]
    · rw [hmem', hmem, mem_cons]
      grind

theorem loadsAll (h : Separates identity sent) : LoadsAll (Sink.apply identity payload) sent := by
  intro calls hcalls
  obtain ⟨done, hfold, hnodup, hmem⟩ := foldlM_of payload h hcalls (forall_mem_nil _)
  exact ⟨_, hfold, hnodup nodup_nil, by simpa [Sink.of] using hmem⟩

omit [DecidableEq ι] in
theorem distinguishes_iff (h : ∀ b ∈ sent, ∀ b' ∈ sent, identity b = identity b' ↔
      (b.table, b.part, b.seq) = (b'.table, b'.part, b'.seq)) :
    Distinguishes identity sent ↔ Separates identity sent := by
  refine forall₂_congr fun b hb => forall₂_congr fun b' hb' => ?_
  refine forall₂_congr fun _ _ => ⟨fun hne heq => ?_, fun hsep hne heq => hne (hsep heq ▸ rfl)⟩
  have hkey := (h b hb b' hb').1 heq
  have hrows := not_imp_not.1 hne heq
  cases b
  cases b'
  simp_all

end Loads

/-- **Batches with different rows have different identities exactly when the attempts of the run
repeat each other** where they send rows for the same place of a part, and then every batch is loaded
once, also when its response is lost.  SHA-256 is not to collide on the texts of the run. -/
theorem identities_distinct_iff {qualified : String → String} {payloadHash : List ρ → String}
    {run : String} {attempts : List (List (Chunk ρ))}
    (hseed : ∀ b ∈ batches qualified attempts, ∀ b' ∈ batches qualified attempts,
      sha256 (seed b.table run b.part b.seq) = sha256 (seed b'.table run b'.part b'.seq) →
        seed b.table run b.part b.seq = seed b'.table run b'.part b'.seq)
    (htable : ∀ b ∈ batches qualified attempts, ∀ b' ∈ batches qualified attempts,
      (sha256 b.table).take 8 = (sha256 b'.table).take 8 → b.table = b'.table) :
    (Distinguishes (fun b => batchToken b.table run b.part b.seq) (batches qualified attempts) ↔
      Repeats qualified attempts) ∧
    (Distinguishes (fun b => stagedFile b.table run b.part b.seq) (batches qualified attempts) ↔
      Repeats qualified attempts) ∧
    (Repeats qualified attempts →
      LoadsAll (redshiftApply payloadHash run) (batches qualified attempts) ∧
      LoadsAll (snowflakeWrite run) (batches qualified attempts)) := by
  have htoken : ∀ b ∈ batches qualified attempts, ∀ b' ∈ batches qualified attempts,
      batchToken b.table run b.part b.seq = batchToken b'.table run b'.part b'.seq ↔
        (b.table, b.part, b.seq) = (b'.table, b'.part, b'.seq) := by
    intro b hb b' hb'
    rw [batchToken, batchToken, Text.hex_inj, ← seed_inj run]
    exact ⟨hseed b hb b' hb', congrArg sha256⟩
  have hfile : ∀ b ∈ batches qualified attempts, ∀ b' ∈ batches qualified attempts,
      stagedFile b.table run b.part b.seq = stagedFile b'.table run b'.part b'.seq ↔
        (b.table, b.part, b.seq) = (b'.table, b'.part, b'.seq) := by
    intro b hb b' hb'
    rw [stagedFile_inj, Prod.mk.injEq, Prod.mk.injEq (b.table)]
    exact and_congr_left fun _ => ⟨htable b hb b' hb', fun heq => by rw [heq]⟩
  have hseparates {ι : Type} {identity : Batch ρ → ι}
      (h : ∀ b ∈ batches qualified attempts, ∀ b' ∈ batches qualified attempts,
        identity b = identity b' ↔ (b.table, b.part, b.seq) = (b'.table, b'.part, b'.seq)) :
      Separates identity (batches qualified attempts) ↔ Repeats qualified attempts := by
    rw [repeats_iff]
    exact forall₂_congr fun b hb => forall₂_congr fun b' hb' => by rw [h b hb b' hb']
  refine ⟨(distinguishes_iff htoken).trans (hseparates htoken),
    (distinguishes_iff hfile).trans (hseparates hfile), fun h => ⟨?_, ?_⟩⟩
  · exact loadsAll _ ((hseparates htoken).2 h)
  · exact loadsAll _ ((hseparates hfile).2 h)

section Orders

private def quoted (resource : String) : String := "\"public\".\"" ++ resource ++ "\""

/-- A run that was paused after the first of two parts, and went on with the second. -/
private def nextPart : List (List (Chunk ℕ)) := [[⟨"orders", 0, [1, 2, 3]⟩], [⟨"orders", 1, [4, 5]⟩]]

theorem identities_distinct_iff_next_part : Repeats quoted nextPart ∧
    LoadsAll (redshiftApply toString "run-7") (batches quoted nextPart) := by
  have hrepeats : Repeats quoted nextPart := repeats_iff.2 (by decide +kernel)
  refine ⟨hrepeats, ((identities_distinct_iff ?_ ?_).2.2 hrepeats).1⟩
  · decide +kernel
  · decide +kernel

/-- A run that was paused within a part, and went on with the next rows of it. -/
private def samePart : List (List (Chunk ℕ)) := [[⟨"orders", 0, [1, 2, 3]⟩], [⟨"orders", 0, [4, 5]⟩]]

/-- **The resumed attempt's batch has the identities of the first one**: Redshift rejects it, and
Snowflake does not load it. -/
theorem resumed_batch_confused :
    (batches quoted samePart).map (·.rows) = [[1, 2, 3], [4, 5]] ∧
    ¬ Repeats quoted samePart ∧
    (batches quoted samePart).foldlM (redshiftApply toString "run-7") {} =
      .error (batchToken (quoted "orders") "run-7" 0 0, "[1, 2, 3]", "[4, 5]") ∧
    ((batches quoted samePart).foldlM (snowflakeWrite "run-7") {}).map
      (fun s => s.loads.map (·.rows)) = .ok [[1, 2, 3]] := by
  refine ⟨by decide +kernel, by rw [repeats_iff]; decide +kernel, ?_, ?_⟩
  · decide +kernel
  · decide +kernel

end Orders

end Filament.WriteIdentity
