import Mathlib.Data.List.Basic
import Mathlib.Data.Int.Notation

/-!
# Checkpoint cursors

Package `checkpoint`: the cursors a source persists and the deltas a written batch carries.

A cursor is a loosely typed map that is only read through the getters of the package; `Cursor` holds
what they return.

* `parseKeyset`, `parseStream`, `decodeDelta` : the decoders;
* `mergeShardDelta`, `mergeStream` : a delta applied to the accumulated cursor;
* `merged_shards_newest` : the keys after any deltas;
* `promoteIncrementalBackfill` : a finished backfill plan becomes its watermark;
* `requiresReplay` : cursors that may be kept before the sink commits.
-/

namespace Filament.Checkpoint

open List

/-- The spelling of a cursor's mode; `other` is any further one. -/
inductive CursorMode where
  | modeKeyset
  | modeBitmap
  | modeCtid
  | modeIncremental
  | modeIncrementalBackfill
  | modeStream
  | coarseDeltaTag
  | other
  deriving DecidableEq, Repr

/-- One independently resumable slice of a resource. -/
structure KeysetShard where
  lo : List String
  hi : List String
  key : List String
  done : Bool
  deriving DecidableEq, Repr

/-- What the getters read from a cursor. `mode` is `none` when it is absent, `want` when the entry
is. -/
structure Cursor where
  mode : Option CursorMode := none
  cols : List String := []
  types : List String := []
  shards : List KeysetShard := []
  metadata : List (String × String) := []
  part : ℤ := 0
  key : List String := []
  lsn : String := ""
  seq : ℕ := 0
  ack : ℤ := 0
  want : Option ℤ := none
  deriving DecidableEq, Repr

/-- A cursor of a resource. -/
structure CheckpointData where
  resourceName : String
  cursor : Cursor
  deriving DecidableEq, Repr

/-- The decoded cursor of one resource with a shard layout. -/
structure KeysetCheckpoint where
  mode : CursorMode
  cols : List String
  types : List String
  shards : List KeysetShard
  metadata : List (String × String)
  deriving DecidableEq, Repr

/-- The modes with a shard layout. -/
def CursorMode.isKeyset : CursorMode → Bool
  | .modeKeyset | .modeBitmap | .modeCtid | .modeIncremental | .modeIncrementalBackfill => true
  | _ => false

/-- Encodes the plan for persistence. -/
def KeysetCheckpoint.toCheckpoint (k : KeysetCheckpoint) (resource : String) : CheckpointData where
  resourceName := resource
  cursor := { mode := some k.mode, cols := k.cols, types := k.types, shards := k.shards,
              metadata := k.metadata }

/-- Decodes a cursor with a shard layout. -/
def parseKeyset : Option CheckpointData → Option KeysetCheckpoint
  | none => none
  | some cp =>
    match cp.cursor.mode with
    | none => none
    | some mode =>
      if mode.isKeyset then
        some ⟨mode, cp.cursor.cols, cp.cursor.types, cp.cursor.shards, cp.cursor.metadata⟩
      else none

variable {k : KeysetCheckpoint} {cp : CheckpointData} {lsn : String} {seq : ℕ}

theorem mode_of_parseKeyset (h : parseKeyset (some cp) = some k) :
    some k.mode = cp.cursor.mode := by
  simp only [parseKeyset] at h
  split at h
  · cases h
  · next hm =>
    split_ifs at h
    cases h
    exact hm.symm

theorem isKeyset_of_parseKeyset {cp : Option CheckpointData} (h : parseKeyset cp = some k) :
    k.mode.isKeyset = true := by
  unfold parseKeyset at h
  split at h
  · cases h
  split at h
  · cases h
  split_ifs at h with hk
  cases h
  exact hk

theorem parseKeyset_toCheckpoint (h : k.mode.isKeyset = true) (resource : String) :
    parseKeyset (some (k.toCheckpoint resource)) = some k :=
  if_pos h

/-- Decodes a change-stream position. A missing mode is tolerated when a position is present. -/
def parseStream : Option CheckpointData → Option (String × ℕ)
  | none => none
  | some cp =>
    if cp.cursor.lsn = "" ∨ (cp.cursor.mode ≠ none ∧ cp.cursor.mode ≠ some .modeStream) then none
    else some (cp.cursor.lsn, cp.cursor.seq)

/-- The progress operation of one written batch. -/
inductive Delta where
  | unknown
  | shard (part : ℤ) (key : List String)
  | stream (lsn : String) (seq : ℕ)
  | coarse (part ack want : ℤ) (hasWant : Bool)
  deriving DecidableEq, Repr

/-- A position, when there is one. -/
def streamDelta (cp : CheckpointData) : Delta :=
  match parseStream (some cp) with
  | some (lsn, seq) => .stream lsn seq
  | none => .unknown

/-- Classifies and decodes a batch checkpoint. -/
def decodeDelta (cp : CheckpointData) : Delta :=
  match cp.cursor.mode with
  | some .coarseDeltaTag =>
    .coarse cp.cursor.part cp.cursor.ack (cp.cursor.want.getD 0) cp.cursor.want.isSome
  | some .modeKeyset => .shard cp.cursor.part cp.cursor.key
  | _ => streamDelta cp

theorem parseStream_of_decodeDelta (h : decodeDelta cp = .stream lsn seq) :
    parseStream (some cp) = some (lsn, seq) := by
  unfold decodeDelta at h
  split at h
  · cases h
  · cases h
  · unfold streamDelta at h
    split at h
    · rename_i heq
      cases h
      exact heq
    · cases h

/-- The delta of a batch of a keyset read. -/
def newShardDelta (resource : String) (part : ℤ) (key : List String) : CheckpointData :=
  ⟨resource, { mode := some .modeKeyset, part := part, key := key }⟩

/-- The write ack of a batch of a coarse read: `n` rows of the part were written. -/
def newCoarseAck (resource : String) (part n : ℤ) : CheckpointData :=
  ⟨resource, { mode := some .coarseDeltaTag, part := part, ack := n }⟩

/-- The completion marker: the part delivers `n` rows in all. -/
def newCoarseDone (resource : String) (part n : ℤ) : CheckpointData :=
  ⟨resource, { mode := some .coarseDeltaTag, part := part, want := some n }⟩

/-- Sets one element of a list. -/
def setShardKey (shards : List KeysetShard) (part : ℤ) (key : List String) : List KeysetShard :=
  shards.modify part.toNat fun s => { s with key := key }

/-- Applies a shard delta onto the base, which carries the layout; a part out of range is
ignored. -/
def mergeShardDelta (base : Option CheckpointData) (delta : CheckpointData) :
    Option CheckpointData :=
  if delta.cursor.mode ≠ some .modeKeyset then base
  else
    match base, parseKeyset base with
    | some b, some ks =>
      if delta.cursor.part < 0 ∨ (ks.shards.length : ℤ) ≤ delta.cursor.part then base
      else
        some (KeysetCheckpoint.toCheckpoint
          { ks with shards := setShardKey ks.shards delta.cursor.part delta.cursor.key }
          b.resourceName)
    | _, _ => base

variable {merged delta d : CheckpointData} {base : Option CheckpointData}

theorem mergeShardDelta_name (h : mergeShardDelta base delta = some merged) :
    ∃ b, base = some b ∧ merged.resourceName = b.resourceName := by
  unfold mergeShardDelta at h
  split_ifs at h
  · exact ⟨merged, h, rfl⟩
  split at h
  · rename_i b ks _
    split_ifs at h
    · exact ⟨merged, h, rfl⟩
    · cases h
      exact ⟨b, rfl, rfl⟩
  · exact ⟨merged, h, rfl⟩

/-- A shard delta sets the key of its shard, if there is one. -/
theorem parseKeyset_mergeShardDelta (resource : String) (part : ℤ) (key : List String) :
    parseKeyset (mergeShardDelta base (newShardDelta resource part key)) =
      (parseKeyset base).map fun k => { k with shards := k.shards.mapIdx fun i s =>
        if i = part then { s with key := key } else s } := by
  cases base with
  | none => rfl
  | some b =>
    unfold mergeShardDelta
    rw [if_neg (by simp [newShardDelta])]
    cases hk : parseKeyset (some b) with
    | none => exact hk
    | some k =>
      have hmode := isKeyset_of_parseKeyset hk
      by_cases hout : part < 0 ∨ (k.shards.length : ℤ) ≤ part
      · refine (congrArg parseKeyset (if_pos hout)).trans (hk.trans ?_)
        rw [Option.map_some,
          show k.shards.mapIdx _ = k.shards from ext_getElem (by simp) fun i _ hi => ?_]
        rw [getElem_mapIdx, if_neg (by omega)]
      · refine (congrArg parseKeyset (if_neg hout)).trans ?_
        refine (parseKeyset_toCheckpoint (by exact hmode) _).trans (congrArg some ?_)
        congr 1
        refine ext_getElem (by simp [setShardKey]) fun i _ _ => ?_
        simp only [setShardKey, newShardDelta, getElem_modify, getElem_mapIdx]
        split_ifs <;> first | rfl | omega

/-- **The accumulated cursor of a keyset read.** Whatever deltas are merged, listed newest first, the
layout stays and each shard has the key of the newest delta for it. -/
theorem merged_shards_newest (resource : String) (deltas : List (ℤ × List String)) :
    parseKeyset (deltas.foldr (fun d b => mergeShardDelta b (newShardDelta resource d.1 d.2)) base) =
      (parseKeyset base).map fun k => { k with shards := k.shards.mapIdx fun i s =>
        { s with key := (deltas.lookup (i : ℤ)).getD s.key } } := by
  induction deltas with
  | nil =>
    have hsame (k : KeysetCheckpoint) : (k.shards.mapIdx fun _ s => s) = k.shards :=
      ext_getElem (by simp) (by simp)
    cases hk : parseKeyset base <;> simp [hk, hsame]
  | cons d deltas ih =>
    rw [foldr_cons, parseKeyset_mergeShardDelta, ih, Option.map_map]
    congr 2
    funext k
    simp only [Function.comp, mapIdx_mapIdx]
    congr 2
    funext i s
    rcases d with ⟨part, key⟩
    by_cases hi : (i : ℤ) = part <;> simp [lookup_cons, hi, beq_false_of_ne]

/-- The delta of a batch of a change-stream read; it is the whole cursor too. -/
def newStreamDelta (resource lsn : String) (seq : ℕ) : CheckpointData :=
  ⟨resource, { mode := some .modeStream, lsn := lsn, seq := seq }⟩

/-- Applies a stream delta onto the base: the higher sequence wins, a tie keeps the delta. -/
def mergeStream (base : Option CheckpointData) (delta : CheckpointData) : Option CheckpointData :=
  match parseStream (some delta) with
  | none => base
  | some (lsn, seq) =>
    match parseStream base with
    | some (_, baseSeq) =>
      if seq < baseSeq then base else some (newStreamDelta delta.resourceName lsn seq)
    | none => some (newStreamDelta delta.resourceName lsn seq)

theorem mergeStream_moved (hd : parseStream (some delta) = some (lsn, seq))
    (hle : ∀ q ∈ parseStream base, q.2 ≤ seq) :
    mergeStream base delta = some (newStreamDelta delta.resourceName lsn seq) := by
  unfold mergeStream
  rw [hd]
  cases hbase : parseStream base with
  | none => rfl
  | some q => exact if_neg (Nat.not_lt.2 (hle q hbase))

theorem mergeStream_name (h : mergeStream base delta = some merged) :
    base = some merged ∨ merged.resourceName = delta.resourceName := by
  unfold mergeStream at h
  split at h
  · exact .inl h
  split at h
  · split_ifs at h
    · exact .inl h
    · cases h
      exact .inr rfl
  · cases h
    exact .inr rfl

/-- Looks a metadata entry up; a missing one is empty. -/
def metaValue (metadata : List (String × String)) (name : String) : String :=
  (metadata.lookup name).getD ""

section Promote

variable (unmarshal : String → Option (List String))

/-- Decodes a list of strings; `unmarshal` is the JSON decoder. -/
def decodeStrings (value : String) : Option (List String) :=
  if value = "" then none else unmarshal value

/-- Replaces a completed backfill plan with the watermark captured before it began. -/
def promoteIncrementalBackfill (cp : Option CheckpointData) : Option CheckpointData :=
  match cp, parseKeyset cp with
  | some c, some plan =>
    if plan.mode ≠ .modeIncrementalBackfill then none
    else
      match decodeStrings unmarshal (metaValue plan.metadata "incremental_cols"),
        decodeStrings unmarshal (metaValue plan.metadata "incremental_types"),
        decodeStrings unmarshal (metaValue plan.metadata "incremental_start") with
      | some cols, some types, some start =>
        if cols.length = 0 ∨ cols.length ≠ types.length then none
        else
          some (KeysetCheckpoint.toCheckpoint
            { mode := .modeIncremental
              cols := cols
              types := types
              shards := [⟨[], [], start, false⟩]
              metadata := [("incremental_lookback_seconds",
                metaValue plan.metadata "incremental_lookback_seconds")] }
            c.resourceName)
      | _, _, _ => none
  | _, _ => none

theorem promoteIncrementalBackfill_spec {unmarshal : String → Option (List String)}
    {cp : Option CheckpointData} {promoted : CheckpointData}
    (h : promoteIncrementalBackfill unmarshal cp = some promoted) :
    ∃ c, cp = some c ∧ c.cursor.mode = some .modeIncrementalBackfill ∧
      promoted.resourceName = c.resourceName ∧ promoted.cursor.mode = some .modeIncremental := by
  unfold promoteIncrementalBackfill at h
  split at h
  · rename_i c plan hplan
    split_ifs at h with hmode
    have hbackfill : c.cursor.mode = some .modeIncrementalBackfill := by
      rw [← mode_of_parseKeyset hplan, not_ne_iff.1 hmode]
    split at h
    · split_ifs at h
      cases h
      exact ⟨c, rfl, hbackfill, rfl, rfl⟩
    · cases h
  · cases h

end Promote

/-- Attempt state that is safe to persist before the sink commits: the source replays its data on
every retry. -/
def requiresReplay (cp : Option CheckpointData) : Bool :=
  match parseKeyset cp with
  | some state => metaValue state.metadata "replay_on_resume" = "true"
  | none => false

theorem requiresReplay_of_parseStream {position : String × ℕ}
    (h : parseStream (some cp) = some position) : requiresReplay (some cp) = false := by
  simp only [parseStream] at h
  split_ifs at h with hmode
  unfold requiresReplay
  cases hk : parseKeyset (some cp) with
  | none => rfl
  | some k =>
    exfalso
    refine hmode (.inr ?_)
    rw [← mode_of_parseKeyset hk]
    refine ⟨nofun, fun hstream => ?_⟩
    have hkeyset := isKeyset_of_parseKeyset hk
    rw [Option.some.inj hstream] at hkeyset
    exact Bool.false_ne_true hkeyset

theorem mergeStream_not_replay (hd : decodeDelta d = .stream lsn seq)
    (h : mergeStream base d = some merged) : requiresReplay (some merged) = false := by
  unfold mergeStream at h
  rw [parseStream_of_decodeDelta hd] at h
  simp only at h
  split at h
  · rename_i position hbase
    split_ifs at h
    · rw [h] at hbase
      exact requiresReplay_of_parseStream hbase
    · cases h
      rfl
  · cases h
    rfl

end Filament.Checkpoint
