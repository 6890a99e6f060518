import Filament.Runner.Continuous

/-!
# Only certified progress is acknowledged

Whatever calls fail or lose their responses, a worker acknowledges a coverage to its source only after
the sink committed the rows of the epoch, the store inserted the certificate of that coverage, and its
lease was renewed, in this order.

* `Worker.Bound`, `Worker.Holds` : what the phase of a worker says about what it sent and what it knows;
* `Honest` : the invariant of the world;
* `acknowledged_certified` : the acknowledgements of every reachable world.
-/

namespace Filament.Runner

open Streams Except History List Nat World

variable {cfg : Config} {w : World}

/-! ### What the phases say -/

variable {k k' : Worker} {c : EpochCommit} {e : Event}

variable (k c) in
/-- What a worker may have sent to the store for its attempt. -/
def Worker.Bound : Prop :=
  match k.phase with
  | .load | .own => False
  | .bindEpoch | .beginSink _ | .read _ | .sealEpoch _ _ | .commitSink _ | .commitEpoch _ =>
    c.certificate.ref.epoch < k.epoch
  | .getEpoch c' | .renewLease c' | .acknowledge c' => c.certificate.ref.epoch < k.epoch ∨ c = c'
  | .reload | .ended => c.certificate.ref.epoch ≤ k.epoch

variable (k c) in
/-- The certificate is of the current epoch of the worker, with the totals that the pipeline
completed. -/
structure Worker.Owns : Prop where
  attempt : c.certificate.ref.attempt = k.attempt
  epoch : c.certificate.ref.epoch = k.epoch
  rows : c.completion.rows = c.certificate.records
  bytes : c.completion.bytes = c.certificate.bytes

theorem Worker.Owns.phase (h : k.Owns c) (phase : Phase) :
    Worker.Owns { k with phase := phase } c :=
  { h with }

/-- The store has inserted the normal form of the certificate. -/
def Stored (cfg : Config) (log : List Fact) (c : EpochCommit) : Prop :=
  ∃ cert, c.certificate.canonicalBytes cfg.store = .ok cert ∧ .stored cert ∈ log

variable (cfg w k) in
/-- What a worker knows when it makes its next call. -/
def Worker.Holds : Prop :=
  match k.phase with
  | .load | .own | .bindEpoch | .reload | .ended => True
  | .beginSink ref | .read ref | .sealEpoch ref _ => ref.attempt = k.attempt ∧ ref.epoch = k.epoch
  | .commitSink c => k.Owns c
  | .commitEpoch c => k.Owns c ∧ .committed c.certificate.ref c.completion ∈ w.log
  | .getEpoch c => k.Owns c ∧ c ∈ w.sent
  | .renewLease c => k.Owns c ∧ Stored cfg w.log c
  | .acknowledge c => k.Owns c ∧
    ∃ before after, w.log = before ++ .renewed k.lease :: after ∧ Stored cfg before c

/-- The certificate that a fact inserts. -/
def Fact.cert : Fact → Option EpochCertificate
  | .stored cert => some cert
  | _ => none

/-- What the facts before a fact must say: an inserted certificate is of an epoch whose rows the sink
committed, and an acknowledged coverage was inserted, and the lease renewed after that. -/
def Warranted (cfg : Config) (before : List Fact) : Fact → Prop
  | .stored cert => ∃ proof, .committed cert.ref proof ∈ before ∧ proof.rows = cert.records ∧
    proof.bytes = cert.bytes
  | .acknowledged ref coverage => ∃ cert lease l₁ l₂, before = l₁ ++ .renewed lease :: l₂ ∧
    .stored cert ∈ l₁ ∧ lease.attempt = ref.attempt ∧ cert.ref = ref ∧
    coverage.canonicalize cfg.store.lookup = .ok cert.coverage
  | _ => True

/-- The invariant of the world. -/
structure Honest (cfg : Config) (w : World) : Prop where
  logged : Logged cfg.store w.tables
  mirrors : w.log.filterMap Fact.cert = w.tables.epochs.map StreamEpoch.certificate
  origin : ∀ cert, .stored cert ∈ w.log →
    ∃ c ∈ w.sent, c.certificate.canonicalBytes cfg.store = .ok cert
  claimed : ∀ k ∈ w.workers, ∃ a ∈ w.tables.attempts, a.token = k.attempt.token ∧ a.claimedAt ≠ none
  tokens : (w.workers.map fun k => k.attempt.token).Nodup
  holds : ∀ k ∈ w.workers, k.Holds cfg w
  bound : ∀ c ∈ w.sent, ∃ k ∈ w.workers, c.certificate.ref.attempt = k.attempt ∧ k.Bound c
  once : ∀ c ∈ w.sent, ∀ c' ∈ w.sent, c.certificate.ref.attempt = c'.certificate.ref.attempt →
    c.certificate.ref.epoch = c'.certificate.ref.epoch → c = c'
  backed : ∀ c ∈ w.sent, .committed c.certificate.ref c.completion ∈ w.log ∧
    c.completion.rows = c.certificate.records ∧ c.completion.bytes = c.certificate.bytes
  justified : Justified (Warranted cfg) w.log

theorem honest_fresh (cfg : Config) (pipelines : String → Option Pipeline) :
    Honest cfg (.fresh pipelines) where
  logged := logged_fresh cfg.store pipelines
  mirrors := rfl
  origin := by simp [fresh]
  claimed := by simp [fresh]
  tokens := nodup_nil
  holds := by simp [fresh]
  bound := by simp [fresh]
  once := by simp [fresh]
  backed := by simp [fresh]
  justified := justified_nil _

theorem Honest.worker_eq (h : Honest cfg w) (hk : k ∈ w.workers) (hk' : k' ∈ w.workers)
    (hattempt : k.attempt = k'.attempt) : k = k' :=
  inj_on_of_nodup_map h.tokens hk hk' (congrArg AttemptRef.token hattempt)

/-- A worker's bound is on everything that was sent for its attempt. -/
theorem Honest.bound_of (h : Honest cfg w) (hk : k ∈ w.workers) (hc : c ∈ w.sent)
    (hattempt : c.certificate.ref.attempt = k.attempt) : k.Bound c := by
  obtain ⟨k', hk', hattempt', hbound⟩ := h.bound c hc
  rwa [h.worker_eq hk hk' (hattempt.symm.trans hattempt')]

theorem Worker.Holds.mono (h : k.Holds cfg w) {w' : World} {facts : List Fact}
    (hlog : w'.log = w.log ++ facts) (hsent : w.sent ⊆ w'.sent) : k.Holds cfg w' := by
  have hstored : ∀ c, Stored cfg w.log c → Stored cfg w'.log c := by
    rintro c ⟨cert, hcert, hmem⟩
    exact ⟨cert, hcert, hlog ▸ mem_append_left _ hmem⟩
  unfold Worker.Holds at h ⊢
  cases hphase : k.phase with
  | load | own | bindEpoch | reload | ended => trivial
  | beginSink | read | sealEpoch | commitSink =>
    rw [hphase] at h
    exact h
  | commitEpoch c =>
    rw [hphase] at h
    exact ⟨h.1, hlog ▸ mem_append_left _ h.2⟩
  | getEpoch c =>
    rw [hphase] at h
    exact ⟨h.1, hsent h.2⟩
  | renewLease c =>
    rw [hphase] at h
    exact ⟨h.1, hstored c h.2⟩
  | acknowledge c =>
    rw [hphase] at h
    obtain ⟨howns, before, after, heq, hbefore⟩ := h
    exact ⟨howns, before, after ++ facts, by rw [hlog, heq]; simp, hbefore⟩

/-! ### The store -/

/-- The store keeps its epochs, or it inserts the certificate that it was sent. -/
theorem perform_epochs (hlogged : Logged cfg.store w.tables) (e : Event) :
    ((w.perform cfg e).tables.epochs = w.tables.epochs ∧ (w.perform cfg e).log = w.log) ∨
    ∃ c row, e.op = .commit c ∧ c.certificate.canonicalBytes cfg.store = .ok row.certificate ∧
      (w.perform cfg e).tables.epochs = w.tables.epochs ++ [row] ∧
      (w.perform cfg e).log = w.log ++ [.stored row.certificate] := by
  have hlog : (w.perform cfg e).log = w.log ++
      ((w.perform cfg e).tables.epochs.drop w.tables.epochs.length).map fun row =>
        .stored row.certificate := rfl
  have hkeeps : (w.perform cfg e).tables.epochs = w.tables.epochs → (w.perform cfg e).log = w.log := by
    intro hsame
    rw [hlog, hsame]
    simp
  rcases step_cases cfg.store w.system e with heq | hcommits
  · exact .inl ⟨congrArg Tables.epochs heq, hkeeps (congrArg Tables.epochs heq)⟩
  rcases exec_epochs hlogged.fenced.unique hcommits with hsame | ⟨c, row, hop, hcert, hrow⟩
  · exact .inl ⟨hsame, hkeeps hsame⟩
  · exact .inr ⟨c, row, hop, hcert, hrow, by
      rw [hlog, show (w.perform cfg e).tables.epochs = _ from hrow]
      simp⟩

/-- An operation of the store keeps the invariant, if a certificate that is committed was sent by a
worker. -/
theorem Honest.perform (h : Honest cfg w) (hsent : ∀ c, e.op = .commit c → c ∈ w.sent) :
    Honest cfg (w.perform cfg e) := by
  have hlogged : Logged cfg.store (w.perform cfg e).tables := h.logged.step e
  have hholds : ∀ k ∈ w.workers, k.Holds cfg (w.perform cfg e) := fun k hk =>
    (h.holds k hk).mono rfl (Subset.refl _)
  have hclaimed : ∀ k ∈ w.workers, ∃ a ∈ (w.perform cfg e).tables.attempts,
      a.token = k.attempt.token ∧ a.claimedAt ≠ none := by
    intro k hk
    obtain ⟨a, ha, htoken, hclaim⟩ := h.claimed k hk
    rcases step_cases cfg.store w.system e with heq | hcommits
    · exact ⟨a, (congrArg Tables.attempts heq) ▸ ha, htoken, hclaim⟩
    · obtain ⟨b, hb, hkeeps⟩ := exec_attempts h.logged.fenced.unique hcommits ha
      exact ⟨b, hb, hkeeps.token.trans htoken, hkeeps.claimed hclaim⟩
  rcases perform_epochs h.logged e with ⟨hepochs, hlog⟩ | ⟨c, row, hop, hcert, hepochs, hlog⟩
  · refine ⟨hlogged, ?_, ?_, hclaimed, h.tokens, hholds, h.bound, h.once, ?_, ?_⟩
    · rw [hlog, hepochs]
      exact h.mirrors
    · rw [hlog]
      exact h.origin
    · rw [hlog]
      exact h.backed
    · rw [hlog]
      exact h.justified
  · have hc := hsent c hop
    obtain ⟨hbacked, hrows, hbytes⟩ := h.backed c hc
    obtain ⟨-, href, hrecords, hbytes', -⟩ := of_canonicalBytes hcert
    refine ⟨hlogged, ?_, fun cert hmem => ?_, hclaimed, h.tokens, hholds, h.bound, h.once,
      fun c' hc' => ?_, ?_⟩
    · rw [hlog, hepochs, filterMap_append, map_append, h.mirrors]
      rfl
    · rw [hlog] at hmem
      rcases mem_append.1 hmem with hmem | hmem
      · exact h.origin cert hmem
      · obtain rfl := Fact.stored.inj (mem_singleton.1 hmem)
        exact ⟨c, hc, hcert⟩
    · obtain ⟨hmem, htotals⟩ := h.backed c' hc'
      exact ⟨hlog ▸ mem_append_left _ hmem, htotals⟩
    · rw [hlog]
      refine justified_append h.justified ⟨c.completion, href ▸ hbacked, ?_, ?_⟩
      · exact hrows.trans hrecords.symm
      · exact hbytes.trans hbytes'.symm

/-- What a worker sees of a call to the store. -/
theorem call_cases (cfg : Config) (w : World) (op : Op) (reply : Reply) :
    w.call cfg op reply = (w, false) ∨
    ∃ e : Event, e.op = op ∧ (w.call cfg op reply).1 = w.perform cfg e ∧
      ((w.call cfg op reply).2 = true →
        (exec cfg.store w.tables (w.system.reading e) op).isOk = true) := by
  cases reply with
  | fails | returns | covers | seals => exact .inl rfl
  | answers began wait work => exact .inr ⟨⟨op, began, wait, work⟩, rfl, rfl, id⟩
  | loses began wait work =>
    exact .inr ⟨⟨op, began, wait, work⟩, rfl, rfl, fun h => absurd h nofun⟩

theorem Honest.call (h : Honest cfg w) {op : Op} (hsent : ∀ c, op = .commit c → c ∈ w.sent)
    (reply : Reply) : Honest cfg (w.call cfg op reply).1 := by
  rcases call_cases cfg w op reply with heq | ⟨e, hop, heq, -⟩
  · rw [heq]
    exact h
  · rw [heq]
    exact h.perform (hop ▸ hsent)

theorem call_frame (cfg : Config) (w : World) (op : Op) (reply : Reply) :
    (w.call cfg op reply).1.workers = w.workers ∧ (w.call cfg op reply).1.sent = w.sent ∧
      ∃ facts, (w.call cfg op reply).1.log = w.log ++ facts := by
  rcases call_cases cfg w op reply with heq | ⟨e, -, heq, -⟩
  · rw [heq]
    exact ⟨rfl, rfl, [], (append_nil _).symm⟩
  · rw [heq]
    exact ⟨rfl, rfl, _, rfl⟩

theorem call_workers (cfg : Config) (w : World) (workers : List Worker) (op : Op) (reply : Reply) :
    { w with workers := workers }.call cfg op reply =
      ({ (w.call cfg op reply).1 with workers := workers }, (w.call cfg op reply).2) := by
  cases reply <;> rfl

theorem Honest.stored_of_mem (h : Honest cfg w) {row : StreamEpoch} (hrow : row ∈ w.tables.epochs) :
    .stored row.certificate ∈ w.log := by
  have hmem : row.certificate ∈ w.log.filterMap Fact.cert := by
    rw [h.mirrors]
    exact mem_map_of_mem hrow
  obtain ⟨fact, hfact, hcert⟩ := mem_filterMap.1 hmem
  cases fact with
  | stored cert =>
    cases hcert
    exact hfact
  | committed | renewed | acknowledged => simp [Fact.cert] at hcert

theorem Honest.stored_of_commit (h : Honest cfg w) (hc : c ∈ w.sent) (hop : e.op = .commit c)
    (hok : (exec cfg.store w.tables (w.system.reading e) (.commit c)).isOk = true) :
    Stored cfg (w.perform cfg e).log c := by
  have h' : Honest cfg (w.perform cfg e) := by
    refine h.perform fun c' hc' => ?_
    obtain rfl := Op.commit.inj (hop.symm.trans hc')
    exact hc
  have hcommits : w.system.Commits cfg.store e (w.perform cfg e).tables := by
    refine commits_of_isOk ?_
    rw [hop]
    exact hok
  unfold System.Commits at hcommits
  rw [hop] at hcommits
  obtain ⟨⟨cert, t'⟩, hcommit, heq⟩ := map_eq_ok.1 hcommits
  rcases commitEpoch_cases h.logged.fenced.unique hcommit with ⟨hsame, row, hrow, hcert⟩ |
    ⟨cert', stream, settled, snapshot, hcert, hcertifies⟩
  · refine ⟨row.certificate, hcert, h'.stored_of_mem ?_⟩
    rw [← heq, hsame]
    exact hrow
  · have hrow : epochRow (w.system.reading e) stream cert' snapshot ∈
        (w.perform cfg e).tables.epochs := by
      rw [← heq, hcertifies.stored]
      exact mem_concat_self
    exact ⟨cert', hcert, h'.stored_of_mem hrow⟩

/-! ### Workers -/

variable {i : ℕ} {cert : EpochCertificate} {tenant : TenantID} {ref : EpochRef}

theorem Honest.record (h : Honest cfg w) (fact : Fact) (hcert : fact.cert = none)
    (hfact : Warranted cfg w.log fact) : Honest cfg (w.record fact) where
  logged := h.logged
  mirrors := by
    have hlog : (w.record fact).log.filterMap Fact.cert = w.log.filterMap Fact.cert := by
      simp [World.record, filterMap_append, hcert]
    exact hlog.trans h.mirrors
  origin cert hmem := by
    rcases mem_append.1 hmem with hmem | hmem
    · exact h.origin cert hmem
    · rw [← mem_singleton.1 hmem] at hcert
      simp [Fact.cert] at hcert
  claimed := h.claimed
  tokens := h.tokens
  holds k hk := (h.holds k hk).mono rfl (Subset.refl _)
  bound := h.bound
  once := h.once
  backed c hc := ⟨mem_append_left _ (h.backed c hc).1, (h.backed c hc).2⟩
  justified := justified_append h.justified hfact

theorem Worker.bound_stop (hholds : k.Holds cfg w) (h : k.Bound c) : k.stop.Bound c := by
  obtain ⟨spec, attempt, policy, epoch, revision, phase⟩ := k
  cases phase with
  | load | own => exact h.elim
  | bindEpoch | beginSink | read | sealEpoch | commitSink | commitEpoch => exact le_of_lt h
  | getEpoch c' | renewLease c' | acknowledge c' =>
    rcases h with hlt | rfl
    · exact le_of_lt hlt
    · exact hholds.1.epoch.le
  | reload | ended => exact h

theorem mem_of_getEpoch {t : Tables} (h : getEpoch t tenant ref = .ok cert) :
    ∃ row ∈ t.epochs, row.certificate = cert := by
  simp only [getEpoch, bind_eq_ok, ofOption_eq_ok, require_eq_ok, exists_const, pure_eq_ok_iff] at h
  obtain ⟨-, -, -, row, hrow, rfl⟩ := h
  exact ⟨row, (Table.first_eq_some hrow).1, rfl⟩

theorem coverage_of_canonicalBytes {codecs : Codecs} {c : EpochCertificate}
    (h : c.canonicalBytes codecs = .ok cert) :
    c.coverage.canonicalize codecs.lookup = .ok cert.coverage := by
  simp only [EpochCertificate.canonicalBytes, bind_eq_ok, require_eq_ok, exists_const,
    pure_eq_ok_iff] at h
  obtain ⟨-, _, -, _, -, coverage, hcoverage, -, -, rfl⟩ := h
  exact hcoverage

/-- A certificate that was sent and is equal to a stored one, is that one: nobody else sends for the
attempt, and it sends once for an epoch. -/
theorem Honest.stored_of_lookup (h : Honest cfg w) (hc : c ∈ w.sent)
    {historical expected : EpochCertificate} (hget : getEpoch w.tables tenant ref = .ok historical)
    (hexpected : c.certificate.canonicalBytes cfg.codecs = .ok expected)
    (hactual : historical.canonicalBytes cfg.codecs = .ok expected) : Stored cfg w.log c := by
  obtain ⟨row, hrow, rfl⟩ := mem_of_getEpoch hget
  have hstored := h.stored_of_mem hrow
  obtain ⟨c', hc', hcert⟩ := h.origin _ hstored
  have href : c'.certificate.ref = c.certificate.ref := by
    rw [← (of_canonicalBytes hcert).2.1, ← (of_canonicalBytes hactual).2.1,
      (of_canonicalBytes hexpected).2.1]
  obtain rfl := h.once c' hc' c hc (congrArg EpochRef.attempt href) (congrArg EpochRef.epoch href)
  exact ⟨row.certificate, hcert, hstored⟩

/-- The acknowledgement of a worker is warranted. -/
theorem warranted_acknowledge (hphase : k.phase = .acknowledge c) (h : k.Holds cfg w) :
    Warranted cfg w.log (.acknowledged c.certificate.ref c.certificate.coverage) := by
  rw [Worker.Holds, hphase] at h
  obtain ⟨howns, before, after, hlog, cert, hcert, hmem⟩ := h
  exact ⟨cert, k.lease, before, after, hlog, hmem, howns.attempt.symm, (of_canonicalBytes hcert).2.1,
    coverage_of_canonicalBytes hcert⟩

section

variable (h : Honest cfg w) (hk : w.workers[i]? = some k)
include h hk

theorem Honest.set (hattempt : k'.attempt = k.attempt) (hholds : k'.Holds cfg w)
    (hbound : ∀ c ∈ w.sent, c.certificate.ref.attempt = k.attempt → k.Bound c → k'.Bound c) :
    Honest cfg { w with workers := w.workers.set i k' } where
  logged := h.logged
  mirrors := h.mirrors
  origin := h.origin
  claimed := by
    refine forall_mem_set h.claimed ?_
    rw [hattempt]
    exact h.claimed k (mem_of_getElem? hk)
  tokens := by
    rw [map_set_of_eq hk (congrArg AttemptRef.token hattempt)]
    exact h.tokens
  holds := forall_mem_set h.holds hholds
  bound c hc := by
    obtain ⟨k₀, hk₀, hattempt₀, hbound₀⟩ := h.bound c hc
    by_cases heq : k₀ = k
    · obtain rfl := heq
      obtain ⟨hi, -⟩ := List.getElem?_eq_some_iff.1 hk
      exact ⟨k', mem_set hi k', hattempt₀.trans hattempt.symm, hbound c hc hattempt₀ hbound₀⟩
    · exact ⟨k₀, mem_set_of_mem_of_ne hk hk₀ heq, hattempt₀, hbound₀⟩
  once := h.once
  backed := h.backed
  justified := h.justified

/-- A worker sends its certificate to the store. -/
theorem Honest.send (hphase : k.phase = .commitEpoch c) :
    Honest cfg { w with
      sent := w.sent ++ [c], workers := w.workers.set i { k with phase := .getEpoch c } } := by
  have hmem := mem_of_getElem? hk
  have hholds := h.holds k hmem
  rw [Worker.Holds, hphase] at hholds
  obtain ⟨howns, hcommitted⟩ := hholds
  -- nothing was sent for this epoch before
  have hbefore : ∀ c' ∈ w.sent, c'.certificate.ref.attempt = k.attempt →
      c'.certificate.ref.epoch < k.epoch := by
    intro c' hc' hattempt
    have := h.bound_of hmem hc' hattempt
    rwa [Worker.Bound, hphase] at this
  have hnew : ∀ c' ∈ w.sent, c'.certificate.ref.attempt = c.certificate.ref.attempt →
      c'.certificate.ref.epoch ≠ c.certificate.ref.epoch := by
    intro c' hc' hattempt
    have := hbefore c' hc' (hattempt.trans howns.attempt)
    have := howns.epoch
    omega
  obtain ⟨hi, -⟩ := List.getElem?_eq_some_iff.1 hk
  refine ⟨h.logged, h.mirrors, fun cert hcert => ?_, forall_mem_set h.claimed (h.claimed k hmem),
    ?_, fun k₀ hk₀ => ?_,
    fun c₀ hc₀ => ?_, fun c₁ hc₁ c₂ hc₂ hattempt hepoch => ?_, fun c₀ hc₀ => ?_, h.justified⟩
  · obtain ⟨c₀, hc₀, hcanonical⟩ := h.origin cert hcert
    exact ⟨c₀, mem_append_left _ hc₀, hcanonical⟩
  · have htokens : (w.workers.set i { k with phase := .getEpoch c }).map (·.attempt.token) =
        w.workers.map fun k => k.attempt.token := map_set_of_eq hk rfl
    rw [htokens]
    exact h.tokens
  · rcases mem_or_eq_of_mem_set hk₀ with hold | rfl
    · exact (h.holds k₀ hold).mono (append_nil _).symm (subset_append_left ..)
    · exact ⟨howns.phase _, by simp⟩
  · rcases mem_concat.1 hc₀ with hold | rfl
    · obtain ⟨k₀, hk₀, hattempt, hbound⟩ := h.bound c₀ hold
      by_cases heq : k₀ = k
      · obtain rfl := heq
        exact ⟨_, mem_set hi _, hattempt, .inl (hbefore c₀ hold hattempt)⟩
      · exact ⟨k₀, mem_set_of_mem_of_ne hk hk₀ heq, hattempt, hbound⟩
    · exact ⟨_, mem_set hi _, howns.attempt, .inr rfl⟩
  · rcases mem_append.1 hc₁ with hold₁ | hlast₁ <;>
      rcases mem_append.1 hc₂ with hold₂ | hlast₂
    · exact h.once c₁ hold₁ c₂ hold₂ hattempt hepoch
    · obtain rfl := mem_singleton.1 hlast₂
      exact absurd hepoch (hnew c₁ hold₁ hattempt)
    · obtain rfl := mem_singleton.1 hlast₁
      exact absurd hepoch.symm (hnew c₂ hold₂ hattempt.symm)
    · exact (mem_singleton.1 hlast₁).trans (mem_singleton.1 hlast₂).symm
  · rcases mem_concat.1 hc₀ with hold | rfl
    · exact h.backed c₀ hold
    · exact ⟨hcommitted, howns.rows, howns.bytes⟩

/-- A worker may end at any call. -/
theorem Honest.stop :
    Honest cfg { w with workers := w.workers.set i k.stop } :=
  h.set hk rfl trivial fun _ _ _ hbound =>
    Worker.bound_stop (h.holds k (mem_of_getElem? hk)) hbound

theorem Honest.renew (reply : Reply) {phase : Phase}
    (hholds : ∀ (w' : World) (facts : List Fact), w'.log = w.log ++ facts →
      Worker.Holds cfg (w'.record (.renewed k.lease)) { k with phase := phase })
    (hbound : ∀ c ∈ w.sent, c.certificate.ref.attempt = k.attempt → k.Bound c →
      Worker.Bound { k with phase := phase } c) :
    Honest cfg (World.put i (w.renew cfg k reply phase)) := by
  obtain ⟨hworkers, hsent, facts, hlog⟩ := call_frame cfg w (.renew k.lease cfg.leaseTTL) reply
  have hcall : Honest cfg (w.call cfg (.renew k.lease cfg.leaseTTL) reply).1 :=
    h.call (fun _ hop => Op.noConfusion hop) reply
  have hk' := hworkers ▸ hk
  simp only [World.renew]
  split_ifs
  · refine (hcall.record (.renewed k.lease) rfl trivial).set hk' rfl (hholds _ facts hlog) fun c hc => ?_
    exact hbound c (hsent ▸ hc)
  · exact hcall.stop hk'

end

/-- A worker that sent its certificate looks at the answer. -/
theorem Honest.answered (h : Honest cfg w)
    (hk : w.workers[i]? = some { k with phase := .getEpoch c }) (hc : c ∈ w.sent) (reply : Reply) :
    Honest cfg (put i (w.certify cfg k c reply)) := by
  obtain ⟨hworkers, -⟩ := call_frame cfg w (.commit c) reply
  have hcall : Honest cfg (w.call cfg (.commit c) reply).1 := by
    refine h.call (fun c' hop => ?_) reply
    cases hop
    exact hc
  have hk' := hworkers ▸ hk
  have hholds := hcall.holds _ (mem_of_getElem? hk')
  simp only [certify]
  split_ifs with hresult
  · refine hcall.set hk' rfl ⟨hholds.1.phase _, ?_⟩ fun c' _ _ hb => hb
    rcases call_cases cfg w (.commit c) reply with heq | ⟨e, hop, heq, hok⟩
    · rw [heq] at hresult
      exact Bool.noConfusion hresult
    · rw [heq]
      exact h.stored_of_commit hc hop (hok hresult)
  · exact hcall.set hk' rfl hholds fun c' _ _ hb => hb

/-- **One call.** Whatever becomes of the next call of a worker, the invariant holds. -/
theorem Honest.next (h : Honest cfg w) (hk : w.workers[i]? = some k) (reply : Reply) :
    Honest cfg (put i (w.next cfg k reply)) := by
  have hholds := h.holds k (mem_of_getElem? hk)
  have hstop : Honest cfg (put i (w, k.stop)) := h.stop hk
  have hle : ∀ c, k.Bound c → k.stop.Bound c := fun _ => Worker.bound_stop hholds
  -- in a given phase `Holds` and `Bound` are what they say of it
  obtain ⟨spec, attempt, policy, epoch, revision, phase⟩ := k
  cases phase <;> simp only [World.next]
  case load =>
    split
    · split_ifs
      · exact h.set hk rfl trivial fun _ _ _ => False.elim
      · exact hstop
    · exact hstop
  case own => exact h.renew hk reply (fun _ _ _ => trivial) fun _ _ _ => False.elim
  case bindEpoch =>
    split
    · exact h.set hk rfl ⟨rfl, rfl⟩ fun _ _ _ => id
    · exact hstop
  case beginSink ref =>
    split
    · exact h.set hk rfl hholds fun _ _ _ => id
    · exact hstop
  case read ref =>
    split
    · split_ifs
      · exact hstop
      · exact h.set hk rfl hholds fun _ _ _ => id
      · exact h.set hk rfl hholds fun _ _ _ => id
    · exact hstop
  case sealEpoch ref coverage =>
    split
    · split_ifs
      · exact h.set hk rfl ⟨hholds.1, hholds.2, rfl, rfl⟩ fun _ _ _ => id
      · exact hstop
    · exact hstop
  case commitSink c =>
    split
    · refine (h.record (.committed c.certificate.ref c.completion) rfl trivial).set hk rfl
        ⟨Worker.Owns.phase hholds _, ?_⟩ fun _ _ _ => id
      exact mem_concat_self
    · exact hstop
  case commitEpoch c =>
    have hsend := h.send hk rfl
    obtain ⟨hi, -⟩ := List.getElem?_eq_some_iff.1 hk
    have hc : c ∈ w.sent ++ [c] := by simp
    have hanswered := hsend.answered (getElem?_set_self hi) hc reply
    rw [certify, call_workers cfg { w with sent := w.sent ++ [c] }] at hanswered
    obtain ⟨hworkers, -⟩ := call_frame cfg { w with sent := w.sent ++ [c] } (.commit c) reply
    simp only [put, certify, set_set, hworkers] at hanswered ⊢
    exact hanswered
  case getEpoch c =>
    split
    · next historical hget =>
      split
      · next expected actual hexpected hactual =>
        split_ifs with heq
        · obtain rfl := heq
          refine h.set hk rfl ⟨hholds.1.phase _, ?_⟩ fun _ _ _ => id
          exact h.stored_of_lookup hholds.2 hget hexpected hactual
        · exact hstop
      · exact hstop
    · exact hstop
  case renewLease c =>
    obtain ⟨howns, cert, hcert, hstored⟩ := hholds
    refine h.renew hk reply (fun w' facts hlog => ⟨howns.phase _, w'.log, [], rfl, cert, hcert, ?_⟩)
      fun _ _ _ => id
    exact hlog ▸ mem_append_left _ hstored
  case acknowledge c =>
    have hrecord := h.record (.acknowledged c.certificate.ref c.certificate.coverage) rfl
      (warranted_acknowledge rfl hholds)
    split
    · split_ifs
      · exact hrecord.set hk rfl trivial fun c' _ _ => hle c'
      · exact hrecord.set hk rfl trivial fun c' _ _ hb => lt_succ_of_le (hle c' hb)
    · exact hrecord.stop hk
  case reload =>
    split
    · exact h.set hk rfl trivial fun c' _ _ hb => lt_succ_of_le (hle c' hb)
    · exact hstop
  case ended => exact h.set hk rfl hholds fun _ _ _ => id

/-! ### Dispatches and runs -/

theorem Honest.dispatch (h : Honest cfg w) (spec : RunSpec) (messagePolicy : Bool) (reply : Reply) :
    Honest cfg (w.dispatch cfg spec messagePolicy reply) := by
  unfold World.dispatch
  cases spec.streamAttempt with
  | none => exact h
  | some attempt =>
    set op : Op := .claim ⟨spec.request.tenant, attempt⟩ with hop
    have hcall : Honest cfg (w.call cfg op reply).1 := h.call (fun _ hcommit => Op.noConfusion hcommit) reply
    obtain ⟨hworkers, -⟩ := call_frame cfg w op reply
    simp only
    split_ifs with hresult
    · have hclaim : (∃ a ∈ w.tables.attempts, a.token = attempt.token ∧ a.claimedAt = none) ∧
          ∃ b ∈ (w.call cfg op reply).1.tables.attempts, b.token = attempt.token ∧
            b.claimedAt ≠ none := by
        rcases call_cases cfg w op reply with heq | ⟨e, heop, heq, hok⟩
        · rw [heq] at hresult
          exact Bool.noConfusion hresult
        have hcommits : w.system.Commits cfg.store e (w.perform cfg e).tables := by
          refine commits_of_isOk ?_
          rw [heop]
          exact hok hresult
        unfold System.Commits at hcommits
        rw [heop] at hcommits
        rw [heq]
        exact claimStreamAttempt_spec hcommits
      obtain ⟨⟨a, ha, htoken, hunclaimed⟩, b, hb, hbtoken, hclaimed⟩ := hclaim
      -- the workers of the world have claimed theirs
      have hnew : ∀ k ∈ w.workers, k.attempt.token ≠ attempt.token := by
        intro k hk heq
        obtain ⟨a', ha', htoken', hclaimed'⟩ := h.claimed k hk
        obtain rfl := h.logged.fenced.serial.eq_of_token_eq ha ha'
          (htoken.trans (heq.symm.trans htoken'.symm))
        exact hclaimed' hunclaimed
      refine { hcall with
          claimed := fun k hk => ?_, tokens := ?_, holds := fun k hk => ?_
          bound := fun c hc => ?_ }
      · rcases mem_concat.1 hk with hold | rfl
        · exact hcall.claimed k hold
        · exact ⟨b, hb, hbtoken, hclaimed⟩
      · rw [map_append, nodup_append]
        refine ⟨hcall.tokens, nodup_singleton _, fun token htoken token' htoken' => ?_⟩
        obtain ⟨k, hk, rfl⟩ := mem_map.1 htoken
        obtain rfl := mem_singleton.1 htoken'
        exact hnew k (hworkers ▸ hk)
      · rcases mem_concat.1 hk with hold | rfl
        · exact hcall.holds k hold
        · trivial
      · obtain ⟨k, hk, hattempt, hbound⟩ := hcall.bound c hc
        exact ⟨k, mem_append_left _ hk, hattempt, hbound⟩
    · exact hcall

/-- **One step.** -/
theorem Honest.step (h : Honest cfg w) (act : Act) : Honest cfg (w.step cfg act) := by
  cases act with
  | other e =>
    simp only [World.step]
    split
    · exact h
    · next hop => exact h.perform fun c hc => absurd hc (hop c)
  | arrives i began wait work =>
    simp only [World.step]
    split
    · next c hc =>
      refine h.perform fun c' hop => ?_
      cases hop
      exact mem_of_getElem? hc
    · exact h
  | dispatches spec messagePolicy reply => exact h.dispatch spec messagePolicy reply
  | works i reply =>
    simp only [World.step]
    split
    · next k hk => exact h.next hk reply
    · exact h

/-- **Every run.** -/
theorem honest_run (cfg : Config) (pipelines : String → Option Pipeline) (acts : List Act) :
    Honest cfg (Trace.run (step cfg) (.fresh pipelines) acts) :=
  Trace.inv_run (fun _ act h => h.step act) (honest_fresh cfg pipelines) acts

theorem Honest.mem_of_stored (h : Honest cfg w) (hcert : .stored cert ∈ w.log) :
    ∃ row ∈ w.tables.epochs, row.certificate = cert := by
  have hmem : cert ∈ w.log.filterMap Fact.cert := mem_filterMap.2 ⟨_, hcert, rfl⟩
  rw [h.mirrors] at hmem
  exact mem_map.1 hmem

/-- **Only certified progress is acknowledged.**  In every run of workers and of other clients of the
store, with calls that fail or lose their answers: when a coverage is acknowledged for an epoch, the
sink had committed the rows of the epoch, then the store inserted the certificate of that epoch with
these totals and with the normal form of that coverage, and then the worker renewed its lease; the
certificate is still stored; and no epoch of a stream is certified twice. -/
theorem acknowledged_certified (cfg : Config) (pipelines : String → Option Pipeline)
    (acts : List Act) :
    let w := Trace.run (World.step cfg) (.fresh pipelines) acts
    (∀ before ref coverage after, w.log = before ++ .acknowledged ref coverage :: after →
      ∃ cert proof lease l₁ l₂ l₃ l₄,
        before = l₁ ++ .committed ref proof :: l₂ ++ .stored cert :: l₃ ++ .renewed lease :: l₄ ∧
        cert.ref = ref ∧ coverage.canonicalize cfg.store.lookup = .ok cert.coverage ∧
        proof.rows = cert.records ∧ proof.bytes = cert.bytes ∧ lease.attempt = ref.attempt ∧
        ∃ row ∈ w.tables.epochs, row.certificate = cert) ∧
    ∀ cert cert', .stored cert ∈ w.log → .stored cert' ∈ w.log →
      cert.ref.attempt.streamID = cert'.ref.attempt.streamID → cert.ref.epoch = cert'.ref.epoch →
      cert = cert' := by
  intro w
  have h : Honest cfg w := honest_run cfg pipelines acts
  refine ⟨fun before ref coverage after hlog => ?_, fun cert cert' hcert hcert' hid hepoch => ?_⟩
  · obtain ⟨cert, lease, l₁, l₂, rfl, hstored, hlease, rfl, hcoverage⟩ := h.justified _ _ _ hlog
    obtain ⟨l₃, l₄, rfl⟩ := append_of_mem hstored
    have hinserted : w.log = l₃ ++ .stored cert ::
        (l₄ ++ .renewed lease :: l₂ ++ .acknowledged cert.ref coverage :: after) := by
      rw [hlog]
      simp
    obtain ⟨proof, hcommitted, hrows, hbytes⟩ := h.justified _ _ _ hinserted
    obtain ⟨l₅, l₆, rfl⟩ := append_of_mem hcommitted
    refine ⟨cert, proof, lease, l₅, l₆, l₄, l₂, rfl, rfl, hcoverage, hrows, hbytes, hlease, ?_⟩
    refine h.mem_of_stored ?_
    rw [hinserted]
    exact mem_append_right _ (mem_cons_self ..)
  · obtain ⟨row, hrow, rfl⟩ := h.mem_of_stored hcert
    obtain ⟨row', hrow', rfl⟩ := h.mem_of_stored hcert'
    have ha := h.logged.addressed row hrow
    have ha' := h.logged.addressed row' hrow'
    have hids : row.streamID = row'.streamID :=
      (congrArg (·.stream.id) ha.request).symm.trans
        (hid.trans (congrArg (·.stream.id) ha'.request))
    have hepochs : row.epoch = row'.epoch := ha.epoch.symm.trans (hepoch.trans ha'.epoch)
    rw [h.logged.single row hrow row' hrow' hids hepochs]

end Filament.Runner
