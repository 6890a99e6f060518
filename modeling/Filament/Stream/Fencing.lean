import Mathlib.Algebra.Order.Ring.Nat
import Filament.Lib.Fencing
import Filament.Stream.Changes

/-!
# Attempts are fenced

Every attempt of a route but the last has ended cleanly, whatever the generations it belongs to, and
tokens grow.

* `Tables.route` : the pipeline route an attempt is on;
* `Fenced` : the attempts of every route are serial in the sense of `Fencing`, over streams with
  unique identifiers whose tenant is that of their pipeline;
* `attempts_fenced` : in every reachable state a route has at most one attempt that has not ended,
  with its greatest token; an attempt starts only after clean ends; and an epoch is inserted only for
  that attempt while its lease is live and its generation active.
-/

namespace Filament.Streams

open Except Table List ReplicationStream

variable {codecs : Codecs} {t t' : Tables} {clock : Clock}

/-! ### Routes -/

variable {a row b : StreamAttempt} {stream s : ReplicationStream} {snapshot : DomainPositions}
  {cert : EpochCertificate} {settled : Tables} {op : Op}

/-- The columns that place a stream. -/
def ReplicationStream.key (s : ReplicationStream) : String × TenantID × String × String × ℕ :=
  (s.id, s.tenantID, s.pipelineID, s.routeKey, s.generation)

variable (t a) in
/-- The pipeline and the route of an attempt. -/
def Tables.route : Option (String × String) :=
  (first (fun s => s.id = a.streamID) t.streams).map fun s => (s.pipelineID, s.routeKey)

theorem route_eq_find? (t : Tables) (a : StreamAttempt) :
    t.route a = ((t.streams.map key).find? fun k => k.1 = a.streamID).map
      fun k => (k.2.2.1, k.2.2.2.1) := by
  rw [find?_map, Option.map_map]
  rfl

theorem route_eq_some (hids : t.UniqueStreams) (hs : s ∈ t.streams) (ha : s.id = a.streamID) :
    t.route a = some (s.pipelineID, s.routeKey) := by
  unfold Tables.route
  cases h : first (fun s => s.id = a.streamID) t.streams with
  | none => exact absurd ha (first_eq_none.1 h s hs)
  | some s' =>
    obtain ⟨hs', hid⟩ := first_eq_some h
    rw [hids.eq hs' hs (hid.trans ha.symm)]
    rfl

theorem Settles.keys (h : Settles t t') :
    t'.streams.map key = t.streams.map key := by
  have hkey := congrArg (map fun i : String × TenantID × String × String × ℕ × StreamStatus × ℕ =>
    (i.1, i.2.1, i.2.2.1, i.2.2.2.1, i.2.2.2.2.1)) h.streams
  rwa [map_map, map_map] at hkey

section

variable (h : t'.streams.map ReplicationStream.key = t.streams.map ReplicationStream.key)
include h

theorem route_congr :
    t'.route = t.route := by
  funext a
  rw [route_eq_find?, route_eq_find?, h]

theorem onRoute_of_keys {pipeline route : String} {tenant : TenantID}
    (ha : t.OnRoute pipeline route tenant a) :
    t'.OnRoute pipeline route tenant a := by
  obtain ⟨s, hs, hid, hpipeline, hroute, htenant⟩ := ha
  obtain ⟨s', hs', heq⟩ := exists_of_map_eq h.symm hs
  simp only [key, Prod.mk.injEq] at heq
  exact ⟨s', hs', heq.1.trans hid, heq.2.2.1.trans hpipeline, heq.2.2.2.1.trans hroute,
    heq.2.1.trans htenant⟩

end

theorem Settles.getLatestRouteAttempt (h : Settles t t') (pipeline route : String)
    (tenant : TenantID) :
    t'.getLatestRouteAttempt pipeline route tenant = t.getLatestRouteAttempt pipeline route tenant := by
  unfold Tables.getLatestRouteAttempt
  rw [h.attempts]
  exact newest_congr fun a _ => ⟨onRoute_of_keys h.keys.symm, onRoute_of_keys h.keys⟩

/-- The attempts of the routes are serial. -/
structure Fenced (t : Tables) : Prop where
  unique : t.UniqueStreams
  home : ∀ s ∈ t.streams, ∃ p ∈ t.pipelines s.pipelineID, p.tenantID = s.tenantID
  owned : ∀ a ∈ t.attempts, ∃ s ∈ t.streams, s.id = a.streamID
  issued : ∀ a ∈ t.attempts, a.token ≤ t.sequence
  serial : Fencing.Serial StreamAttempt.token t.route StreamAttempt.Clean t.attempts

theorem fenced_fresh (pipelines : String → Option Pipeline) : Fenced (.fresh pipelines) where
  unique := nodup_nil
  home := by simp [Tables.fresh]
  owned := by simp [Tables.fresh]
  issued := by simp [Tables.fresh]
  serial := Pairwise.nil

namespace Fenced

section

variable (h : Fenced t) (hs : stream ∈ t.streams)
include h hs

/-- The query for the attempts of a stream's route finds all of them: streams of one pipeline belong
to one tenant. -/
theorem onRoute_iff (ha : a ∈ t.attempts) :
    t.OnRoute stream.pipelineID stream.routeKey stream.tenantID a ↔
      t.route a = some (stream.pipelineID, stream.routeKey) := by
  constructor
  · rintro ⟨s, hmem, hid, hpipeline, hroute, -⟩
    rw [route_eq_some h.unique hmem hid, hpipeline, hroute]
  · intro hroute
    obtain ⟨s, hmem, hid⟩ := h.owned a ha
    rw [route_eq_some h.unique hmem hid, Option.some.injEq, Prod.mk.injEq] at hroute
    obtain ⟨hpipeline, hkey⟩ := hroute
    obtain ⟨p, hp, hp'⟩ := h.home s hmem
    obtain ⟨q, hq, hq'⟩ := h.home stream hs
    rw [hpipeline, Option.mem_def] at hp
    obtain rfl : p = q := Option.mem_unique hp hq
    exact ⟨s, hmem, hid, hpipeline, hkey, hp'.symm.trans hq'⟩

/-- The latest attempt of a route has its greatest token. -/
theorem token_le_latest
    (hrow : t.getLatestRouteAttempt stream.pipelineID stream.routeKey stream.tenantID = some row) :
    row ∈ t.attempts ∧ t.route row = some (stream.pipelineID, stream.routeKey) ∧
      ∀ a ∈ t.attempts, t.route a = t.route row → a.token ≤ row.token := by
  obtain ⟨hmem, hon, hmax⟩ := newest_eq_some hrow
  have hroute := (h.onRoute_iff hs hmem).1 hon
  refine ⟨hmem, hroute, fun a ha hsame => hmax a ha ?_⟩
  exact (h.onRoute_iff hs ha).2 (hsame.trans hroute)

/-- If the latest attempt of a route ended cleanly, then every one did. -/
theorem clean_of_latest
    (hclean : ∀ previous ∈ t.getLatestRouteAttempt stream.pipelineID stream.routeKey stream.tenantID,
      previous.Clean) (ha : a ∈ t.attempts)
    (hroute : t.route a = some (stream.pipelineID, stream.routeKey)) : a.Clean := by
  obtain ⟨row, hrow⟩ : ∃ row, t.getLatestRouteAttempt stream.pipelineID stream.routeKey
      stream.tenantID = some row := exists_newest ha ((h.onRoute_iff hs ha).2 hroute)
  obtain ⟨hmem, hroute', hmax⟩ := h.token_le_latest hs hrow
  have hsame : t.route a = t.route row := hroute.trans hroute'.symm
  exact h.serial.settled_of_greatest hmem ha hsame (hmax a ha hsame) (hclean row hrow)

end

/-! ### Preservation -/

section

variable (h : Fenced t)
include h

theorem congr (hpipelines : t'.pipelines = t.pipelines)
    (hstreams : t'.streams.map key = t.streams.map key)
    (hattempts : t'.attempts = t.attempts) (hsequence : t'.sequence = t.sequence) : Fenced t' := by
  refine ⟨?_, fun s hs => ?_, fun a ha => ?_, fun a ha => ?_, ?_⟩
  · have hids := congrArg (map Prod.fst) hstreams
    rw [map_map, map_map] at hids
    exact (congrArg Nodup hids).mpr h.unique
  · obtain ⟨s', hs', heq⟩ := exists_of_map_eq hstreams hs
    simp only [key, Prod.mk.injEq] at heq
    rw [hpipelines, ← heq.2.2.1, ← heq.2.1]
    exact h.home s' hs'
  · obtain ⟨s, hs, hid⟩ := h.owned a (hattempts ▸ ha)
    obtain ⟨s', hs', heq⟩ := exists_of_map_eq hstreams.symm hs
    exact ⟨s', hs', (congrArg Prod.fst heq).trans hid⟩
  · rw [hsequence]
    exact h.issued a (hattempts ▸ ha)
  · rw [hattempts, route_congr hstreams]
    exact h.serial

theorem settles (hs : Settles t t') : Fenced t' :=
  h.congr hs.pipelines hs.keys hs.attempts hs.sequence

theorem resolves (hr : Resolves t t') : Fenced t' := by
  cases hr with
  | kept => exact h
  | replaced d generation retired hlock hid =>
    -- first the status of the old generation, then the row of the new one
    have hold : Fenced { t with streams := retireRows retired t.streams } :=
      h.congr rfl (map_update fun _ _ _ => rfl) rfl rfl
    have hfresh : ∀ s ∈ retireRows retired t.streams, s.id ≠ d.id := by
      intro s hs
      obtain ⟨s', hs', heq⟩ := exists_of_map_eq (map_id_retireRows retired t.streams) hs
      exact heq ▸ hid s' hs'
    refine ⟨?_, fun s hs => ?_, fun a ha => ?_, h.issued, ?_⟩
    · rw [Tables.UniqueStreams, map_append]
      refine Nodup.append hold.unique (nodup_singleton _) ?_
      intro x hx hx'
      obtain ⟨s, hs, rfl⟩ := mem_map.1 hx
      exact hfresh s hs (mem_singleton.1 hx')
    · rcases mem_concat.1 hs with hs | rfl
      · exact hold.home s hs
      · obtain ⟨p, hp, htenant, -⟩ := hlock
        exact ⟨p, hp, htenant⟩
    · obtain ⟨s, hs, hid⟩ := hold.owned a ha
      exact ⟨s, mem_append_left _ hs, hid⟩
    · refine hold.serial.forall₂ (forall₂_same.2 fun a ha => ⟨rfl, ?_, id⟩)
      obtain ⟨s, hs, hid⟩ := hold.owned a ha
      simp only [Tables.route, first, find?_append]
      cases hfind : (retireRows retired t.streams).find? fun s => s.id = a.streamID with
      | none => exact absurd hid (first_eq_none.1 hfind s hs)
      | some s' => rfl

theorem touches (ht : Touches t t') : Fenced t' := by
  have hback : ∀ a ∈ t'.attempts, ∃ b ∈ t.attempts, b.Keeps a := fun a ha =>
    ht.attempts.exists_of_mem_right ha
  rw [ht.same]
  refine ⟨h.unique, h.home, fun a ha => ?_, fun a ha => ?_, ?_⟩
  · obtain ⟨b, hb, hkeeps⟩ := hback a ha
    rw [hkeeps.streamID]
    exact h.owned b hb
  · obtain ⟨b, hb, hkeeps⟩ := hback a ha
    rw [hkeeps.token]
    exact h.issued b hb
  · refine h.serial.forall₂ (ht.attempts.imp fun a b hkeeps => ⟨hkeeps.token, ?_, hkeeps.clean⟩)
    simp only [Tables.route, hkeeps.streamID]

theorem starts (hs : Starts t t') : Fenced t' := by
  obtain ⟨stream, hstream, a, -, htoken, hid, -, -, hclean, rfl⟩ := hs
  refine ⟨h.unique, h.home, fun b hb => ?_, fun b hb => ?_, ?_⟩
  · rcases mem_concat.1 hb with hb | rfl
    · exact h.owned b hb
    · exact ⟨stream, hstream, hid.symm⟩
  · rcases mem_concat.1 hb with hb | rfl
    · exact (h.issued b hb).trans (Nat.le_succ _)
    · exact htoken.le
  · refine h.serial.append (fun b hb => ?_) fun b hb hsame => ?_
    · have := h.issued b hb
      omega
    · refine h.clean_of_latest hstream hclean hb ?_
      exact hsame.trans (route_eq_some h.unique hstream hid.symm)

theorem quiet (hq : Quiet t t') : Fenced t' := by
  cases hq with
  | settles hs => exact h.settles hs
  | resolves hr => exact h.resolves hr
  | creates run request status ref began hc =>
    rcases createRun_cases hc with ⟨-, rfl⟩ | ⟨-, rfl⟩ <;> exact h.congr rfl rfl rfl rfl
  | touches ht => exact h.touches ht

theorem certifies (hc : Certifies codecs clock t t' cert stream settled snapshot) :
    Fenced t' := by
  rw [hc.stored]
  exact (h.settles hc.calm.toSettles).congr rfl (map_update fun _ _ _ => rfl) rfl rfl

theorem exec (he : exec codecs t clock op = .ok t') : Fenced t' :=
  exec_preserves (fun _ h => h.unique) (fun _ _ hq h => h.quiet hq) (fun _ _ hs h => h.starts hs)
    (fun _ _ _ _ _ _ hc h => h.certifies hc) he h

end

theorem step (codecs : Codecs) {s : System} (e : Event) (h : Fenced s.tables) :
    Fenced (step codecs s e).tables := by
  rcases step_cases codecs s e with heq | hcommits
  · exact heq ▸ h
  · exact h.exec hcommits

end Fenced

theorem fenced_run (codecs : Codecs) (pipelines : String → Option Pipeline) (events : List Event) :
    Fenced (Trace.run (step codecs) (.fresh pipelines) events).tables :=
  @Trace.inv_run _ _ (step codecs) (fun s => Fenced s.tables) _ (fun _ e h => h.step codecs e)
    (fenced_fresh pipelines) events

/-! ### Streams stay where they are -/

/-- Every stream of `t` is there in `t'`, in the same place. -/
def KeepsStreams (t t' : Tables) : Prop := ∀ s ∈ t.streams, ∃ s' ∈ t'.streams, s'.key = s.key

theorem keepsStreams_of_map_eq
    (h : t'.streams.map key = t.streams.map key) :
    KeepsStreams t t' := fun _ hs => exists_of_map_eq h.symm hs

theorem KeepsStreams.trans {t'' : Tables} (h : KeepsStreams t t') (h' : KeepsStreams t' t'') :
    KeepsStreams t t'' := by
  intro s hs
  obtain ⟨s', hs', heq⟩ := h s hs
  obtain ⟨s'', hs'', heq'⟩ := h' s' hs'
  exact ⟨s'', hs'', heq'.trans heq⟩

theorem Quiet.keepsStreams (h : Quiet t t') : KeepsStreams t t' := by
  cases h with
  | settles hs => exact keepsStreams_of_map_eq hs.keys
  | resolves hr =>
    cases hr with
    | kept => exact fun s hs => ⟨s, hs, rfl⟩
    | replaced d generation retired =>
      intro s hs
      obtain ⟨s', hs', heq⟩ := exists_of_map_eq (map_update fun _ _ _ => rfl :
          (retireRows retired t.streams).map key = t.streams.map _).symm hs
      exact ⟨s', mem_append_left _ hs', heq⟩
  | creates run request status ref began hc =>
    rcases createRun_cases hc with ⟨-, rfl⟩ | ⟨-, rfl⟩ <;> exact fun s hs => ⟨s, hs, rfl⟩
  | touches ht =>
    rw [ht.same]
    exact fun s hs => ⟨s, hs, rfl⟩

theorem Certifies.keepsStreams (hc : Certifies codecs clock t t' cert stream settled snapshot) :
    KeepsStreams t t' := by
  rw [hc.stored]
  exact (keepsStreams_of_map_eq hc.calm.keys).trans
    (keepsStreams_of_map_eq (map_update fun _ _ _ => rfl))

theorem keepsStreams_exec (h : Fenced t) (he : exec codecs t clock op = .ok t') :
    KeepsStreams t t' := by
  have hinv : Fenced t' ∧ KeepsStreams t t' := by
    refine @exec_preserves codecs t t' clock op (fun x => Fenced x ∧ KeepsStreams t x)
      (fun _ hx => hx.1.unique)
      (fun _ _ hq hx => ⟨hx.1.quiet hq, hx.2.trans hq.keepsStreams⟩) (fun _ _ hs hx => ?_)
      (fun _ _ _ _ _ _ hc hx => ⟨hx.1.certifies hc, hx.2.trans hc.keepsStreams⟩) he
      ⟨h, fun s hs => ⟨s, hs, rfl⟩⟩
    refine ⟨hx.1.starts hs, hx.2.trans ?_⟩
    obtain ⟨-, -, -, -, -, -, -, -, -, rfl⟩ := hs
    exact fun s hs => ⟨s, hs, rfl⟩
  exact hinv.2

theorem Fenced.route_eq (h : Fenced t) (h' : Fenced t') (hkeeps : KeepsStreams t t')
    (ha : a ∈ t.attempts) (hid : b.streamID = a.streamID) : t'.route b = t.route a := by
  obtain ⟨s, hs, hsid⟩ := h.owned a ha
  obtain ⟨s', hs', hkey⟩ := hkeeps s hs
  simp only [key, Prod.mk.injEq] at hkey
  rw [route_eq_some h.unique hs hsid,
    route_eq_some h'.unique hs' (hkey.1.trans (hsid.trans hid.symm)), hkey.2.2.1, hkey.2.2.2.1]

/-! ### The guarantees -/

/-- At most one attempt of a route has not ended, and it has the greatest token of the route. -/
def OneOwner (t : Tables) : Prop :=
  ∀ a ∈ t.attempts, a.ended = none → ∀ b ∈ t.attempts, t.route b = t.route a →
    b.token ≤ a.token ∧ (b.ended = none → b = a)

/-- Every token that was issued stays on record, for the same route. -/
def KeepsTokens (t t' : Tables) : Prop :=
  ∀ a ∈ t.attempts, ∃ b ∈ t'.attempts, b.token = a.token ∧ t'.route b = t.route a

/-- An attempt with a new token finds every attempt of its route ended cleanly. -/
def StartsClean (t t' : Tables) : Prop :=
  ∀ a ∈ t'.attempts, (∀ b ∈ t.attempts, b.token ≠ a.token) →
    ∀ b ∈ t.attempts, t.route b = t'.route a → b.Clean

/-- An epoch that is inserted is that of the attempt which has not ended and has the greatest token of
its route, on an active generation, while its lease is live. -/
def CommitsOwner (now : ℕ) (t t' : Tables) : Prop :=
  ∀ row ∈ t'.epochs, row ∉ t.epochs → ∃ stream ∈ t.streams, ∃ a ∈ t.attempts,
    stream.id = row.streamID ∧ stream.status = .active ∧ a.streamID = stream.id ∧
    a.token = row.attemptToken ∧ a.ended = none ∧ now < a.expiresAt ∧
    ∀ b ∈ t.attempts, t.route b = t.route a → b.token ≤ a.token

theorem Fenced.oneOwner (h : Fenced t) : OneOwner t := by
  intro a ha hopen b hb hroute
  have hunsettled := StreamAttempt.not_clean_of_unended hopen
  refine ⟨h.serial.token_le ha hb hroute.symm hunsettled, fun hopen' => ?_⟩
  exact h.serial.eq_of_not_settled hb ha hroute (StreamAttempt.not_clean_of_unended hopen') hunsettled

theorem Fenced.commitsOwner (h : Fenced t)
    (hc : Certifies codecs clock t t' cert stream settled snapshot) :
    CommitsOwner clock.now t t' := by
  intro row hrow hnew
  have hmem := (mem_of_lockRuntime hc.lock).1
  obtain ⟨a, hlatest, htoken, hid, hopen, hlive⟩ := of_currentAttempt hc.owner
  -- activating members moved neither attempts nor routes
  rw [hc.calm.getLatestRouteAttempt] at hlatest
  obtain ⟨ha, -, hmax⟩ := h.token_le_latest hmem hlatest
  rw [hc.stored] at hrow
  rcases mem_concat.1 hrow with hrow | rfl
  · exact absurd (hc.calm.epochs ▸ hrow) hnew
  · exact ⟨stream, hmem, a, ha, rfl, hc.active, hid, htoken, hopen, hlive rfl, hmax⟩

theorem Fenced.guarantees (h : Fenced t) (he : Streams.exec codecs t clock op = .ok t') :
    KeepsTokens t t' ∧ StartsClean t t' ∧ CommitsOwner clock.now t t' := by
  have h' := h.exec he
  have hkeeps := keepsStreams_exec h he
  have htokens : Forall₂ StreamAttempt.Keeps t.attempts t'.attempts →
      KeepsTokens t t' ∧ StartsClean t t' := by
    intro hall
    constructor
    · intro a ha
      obtain ⟨b, hb, hab⟩ := hall.exists_of_mem_left ha
      exact ⟨b, hb, hab.token, h.route_eq h' hkeeps ha hab.streamID⟩
    · intro a ha hnew
      obtain ⟨b, hb, hba⟩ := hall.exists_of_mem_right ha
      exact absurd hba.token.symm (hnew b hb)
  rcases exec_cases h.unique he with hquiet | hstarts | ⟨_, cert, stream, settled, snapshot, -, -, hc⟩
  · obtain ⟨hepochs, hall⟩ := quiet_keeps hquiet
    refine ⟨(htokens hall).1, (htokens hall).2, fun row hrow hnew => ?_⟩
    exact absurd (hepochs ▸ hrow) hnew
  · obtain ⟨stream, hstream, a, -, -, hid, -, -, hclean, rfl⟩ := hstarts
    refine ⟨fun b hb => ⟨b, mem_append_left _ hb, rfl, rfl⟩, fun b hb hnew c hcmem hroute => ?_,
      fun row hrow hnew => absurd hrow hnew⟩
    rcases mem_concat.1 hb with hb | rfl
    · exact absurd rfl (hnew b hb)
    · refine h.clean_of_latest hstream hclean hcmem ?_
      exact hroute.trans (route_eq_some h.unique hstream hid.symm)
  · have hattempts : t'.attempts = t.attempts := by
      rw [hc.stored]
      exact hc.calm.attempts
    obtain ⟨h₁, h₂⟩ := htokens (hattempts ▸ forall₂_same.2 fun a _ => .refl a)
    exact ⟨h₁, h₂, h.commitsOwner hc⟩

/-- **Attempts are fenced.** In every reachable state a route has at most one attempt that has not
ended, and it has the greatest token ever issued for the route; an attempt starts only when the
attempts of its route ended cleanly; and an epoch is inserted only for the attempt that has not ended,
with the greatest token and a live lease, on the active generation. -/
theorem attempts_fenced (codecs : Codecs) (pipelines : String → Option Pipeline)
    (events : List Event) :
    let s := Trace.run (step codecs) (.fresh pipelines) events
    OneOwner s.tables ∧ ∀ e : Event,
      KeepsTokens s.tables (step codecs s e).tables ∧
      StartsClean s.tables (step codecs s e).tables ∧
      CommitsOwner (s.reading e).now s.tables (step codecs s e).tables := by
  intro s
  have h : Fenced s.tables := fenced_run codecs pipelines events
  refine ⟨h.oneOwner, fun e => ?_⟩
  rcases step_cases codecs s e with heq | hcommits
  · rw [heq]
    refine ⟨fun a ha => ⟨a, ha, rfl, rfl⟩, fun a ha hnew => absurd rfl (hnew a ha), ?_⟩
    exact fun row hrow hnew => absurd hrow hnew
  · exact h.guarantees hcommits

end Filament.Streams
