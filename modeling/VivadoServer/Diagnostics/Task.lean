/-
  VivadoServer.Diagnostics.Task

  What `push`, `seal` and `wait` preserve of a session, one access at a time.
-/

import VivadoServer.Diagnostics.View

namespace VivadoServer.Diagnostics.Archive.Session

open VivadoServer.History (Bytes Uuid prevBoundary sliceTo)
open VivadoServer.Sessions (Text byteLength sliceFrom)

variable {timeText : Int → String} {id : Uuid} {v : View} {p : Session}

theorem fetchAdd_mod {counter n total : Nat} (h : counter % 2 ^ 64 = total % 2 ^ 64) :
    fetchAdd counter n % 2 ^ 64 = (total + n) % 2 ^ 64 := by
  unfold fetchAdd
  omega

theorem again_spec (t : Text) : (again t).remaining = t ∧ (again t).reserved = 0 ∧
    (again t).gaveUp = false ∧ (again t).offers = false := by
  unfold again
  split
  · rename_i h
    exact ⟨h.symm, rfl, rfl, rfl⟩
  · exact ⟨rfl, rfl, rfl, rfl⟩

/-- A session that is announced. -/
theorem Sound.new {header : Header} (hbacklog : v.backlog = []) (hstarts : v.starts = 1)
    (hreleasing : v.releasing = 0) (hstored : v.stored = none) :
    Sound timeText id v (Session.new header) := by
  refine ⟨⟨?_, ?_, rfl, ?_, by show 0 < 2 ^ 64; omega, .inl rfl, fun hinfo => absurd rfl hinfo, (by rintro ⟨⟩)⟩,
    (by rintro ⟨⟩), fun hlost => absurd rfl hlost, .inl rfl, fun _ hno => ?_, fun _ => ⟨hstarts, hstored, rfl⟩,
    fun a f hsome => ?_, (by rintro _ ⟨⟩)⟩
  · show 0 = v.backlog.length + v.releasing + 0
    rw [hbacklog, hreleasing]
    rfl
  · show [] = [] ++ v.backlog
    rw [hbacklog]
    rfl
  · rw [hbacklog]
    rfl
  · rw [hstarts] at hno
    cases hno
  · rw [hstored] at hsome
    cases hsome

/-- While the task is at work, what is disabled is flagged. -/
theorem Sound.alarm (h : Sound timeText id v p) (hdisabled : p.disabled = true)
    (hwork : p.producer ≠ .timedOut) : Alarm v p :=
  (h.alarmed hdisabled).resolve_right hwork

/-- While the task is at work, the session is not sealed. -/
theorem Sound.unsealed (h : Sound timeText id v p) (hwork : p.producer.closed = false) :
    p.finalInfo = none := by
  by_contra hinfo
  rw [h.delivered.closed hinfo] at hwork
  cases hwork

/-- A step of a task that is at work: flags and the archive are as they were. -/
theorem Sound.works {v' : View} {p' : Session} (h : Sound timeText id v p) (hv : Beside v v')
    (hheader : p'.header = p.header) (hrecords : p'.records = p.records)
    (hprocessed : p'.processed = p.processed) (hfooter : p'.footer = p.footer)
    (hissues : p'.issues = p.issues) (hdisabled : p'.disabled = p.disabled)
    (hwork : p.producer.closed = false) (hflag : ∀ t i, p.producer ≠ .flag t i)
    (hdelivered : Delivered v' p') (hdropped : p'.dropped ≠ p.dropped → p.disabled = true) :
    Kept timeText id p v' p' := by
  have hm : Moves p p' := by
    refine ⟨hheader, hrecords, hprocessed, hfooter, fun i hi => ?_, ?_, fun hinfo => ?_⟩
    · rw [hissues]
      exact hi
    · rintro ⟨t, i, hi⟩
      exact absurd hi (hflag t i)
    · exact absurd (h.unsealed hwork) hinfo
  have hopen : p.producer ≠ .timedOut := by
    intro heq
    rw [heq] at hwork
    cases hwork
  have halarm : p.disabled = true → Alarm v' p' := fun hoff => hm.alarm hv (h.alarm hoff hopen)
  refine h.moves hv hm hdelivered (fun hoff => .inl (halarm (hdisabled ▸ hoff))) fun hlost => ?_
  by_cases hsame : p'.dropped = p.dropped
  · exact hm.alarm hv (h.lost (hsame ▸ hlost))
  · exact halarm (hdropped hsame)

theorem Sound.push (h : Sound timeText id v p) (hready : p.producer = .ready) (text : Text) :
    Kept timeText id p v { p with
      observed := fetchAdd p.observed (byteLength text)
      pushed := p.pushed ++ text
      producer := again text } := by
  obtain ⟨hremaining, hreserved, hgave, hoffers⟩ := again_spec text
  obtain ⟨hpending, hqueued, hobserved, haccount, hsmall, hoffered, -, -⟩ := h.delivered
  have hnone := h.unsealed (by rw [hready]; rfl)
  rw [hready] at hpending haccount hoffered
  refine h.works .refl rfl rfl rfl rfl rfl rfl (by rw [hready]; rfl) (by rw [hready]; rintro _ _ ⟨⟩)
    ⟨?_, hqueued, ?_, ?_, hsmall, ?_, ?_, ?_⟩ fun hne => absurd rfl hne
  · show p.pending = v.backlog.length + v.releasing + (again text).reserved
    rw [hpending, hreserved]
    rfl
  · show fetchAdd p.observed (byteLength text) = byteLength (p.pushed ++ text) % 2 ^ 64
    rw [History.byteLength_append, fetchAdd, hobserved]
    omega
  · show byteLength (p.pushed ++ text) % 2 ^ 64 = _
    rw [History.byteLength_append, hremaining]
    have hzero : byteLength Producer.ready.remaining = 0 := rfl
    rw [hzero] at haccount
    show _ = (byteLength p.archived + p.dropped + byteLength v.backlog.flatten + byteLength text) % 2 ^ 64
    omega
  · obtain hall | ⟨hstart, hoff, -⟩ := hoffered
    · left
      show p.queued.flatten ++ (again text).remaining = p.pushed ++ text
      rw [hremaining, ← hall]
      simp [Producer.remaining]
    · exact .inr ⟨hstart.trans (List.prefix_append _ _), hoff, hoffers⟩
  · exact fun hinfo => absurd hnone hinfo
  · intro hgiven
    exact absurd (hgave.symm.trans hgiven) (by decide)

/-- The task looks whether the archive is disabled. -/
theorem Sound.check {remaining : Text} (h : Sound timeText id v p) (hcheck : p.producer = .check remaining) :
    Kept timeText id p v
      { p with producer := if p.disabled then .discard remaining else .reserve remaining } := by
  obtain ⟨hpending, hqueued, hobserved, haccount, hsmall, hoffered, -, -⟩ := h.delivered
  have hnone := h.unsealed (by rw [hcheck]; rfl)
  rw [hcheck] at hpending haccount hoffered
  refine h.works .refl rfl rfl rfl rfl rfl rfl (by rw [hcheck]; rfl) (by rw [hcheck]; rintro _ _ ⟨⟩)
    ?_ fun hne => absurd rfl hne
  by_cases hoff : p.disabled = true
  · rw [if_pos hoff]
    exact ⟨hpending, hqueued, hobserved, haccount, hsmall, hoffered, fun hinfo => absurd hnone hinfo,
      fun _ => hoff⟩
  · rw [if_neg hoff]
    exact ⟨hpending, hqueued, hobserved, haccount, hsmall, .inl (hoffered.resolve_right fun hno => hoff hno.2.1),
      fun hinfo => absurd hnone hinfo, (by rintro ⟨⟩)⟩

theorem Sound.reserve {remaining : Text} (h : Sound timeText id v p)
    (hreserve : p.producer = .reserve remaining) :
    Kept timeText id p v { p with pending := p.pending + 1, producer := .send remaining } := by
  obtain ⟨hpending, hqueued, hobserved, haccount, hsmall, hoffered, -, -⟩ := h.delivered
  have hnone := h.unsealed (by rw [hreserve]; rfl)
  rw [hreserve] at hpending haccount hoffered
  refine h.works .refl rfl rfl rfl rfl rfl rfl (by rw [hreserve]; rfl) (by rw [hreserve]; rintro _ _ ⟨⟩)
    ⟨?_, hqueued, hobserved, haccount, hsmall, ?_, fun hinfo => absurd hnone hinfo, (by rintro ⟨⟩)⟩
    fun hne => absurd rfl hne
  · show p.pending + 1 = v.backlog.length + v.releasing + 1
    rw [hpending]
    rfl
  · exact .inl (hoffered.resolve_right fun hno => absurd hno.2.2 (by rintro ⟨⟩))

/-- A chunk goes into the queue. -/
theorem Sound.sent {v' : View} {remaining chunk rest : Text} (h : Sound timeText id v p)
    (hsend : p.producer = .send remaining) (hsplit : chunk ++ rest = remaining) (hv : Beside v v')
    (hbacklog : v'.backlog = v.backlog ++ [chunk]) (hreleasing : v'.releasing = v.releasing) :
    Kept timeText id p v' { p with queued := p.queued ++ [chunk], producer := again rest } := by
  obtain ⟨hremaining, hreserved, hgave, hoffers⟩ := again_spec rest
  obtain ⟨hpending, hqueued, hobserved, haccount, hsmall, hoffered, -, -⟩ := h.delivered
  have hnone := h.unsealed (by rw [hsend]; rfl)
  rw [hsend] at hpending haccount hoffered
  refine h.works hv rfl rfl rfl rfl rfl rfl (by rw [hsend]; rfl) (by rw [hsend]; rintro _ _ ⟨⟩)
    ⟨?_, ?_, hobserved, ?_, hsmall, .inl ?_, fun hinfo => absurd hnone hinfo, ?_⟩ fun hne => absurd rfl hne
  · show p.pending = v'.backlog.length + v'.releasing + (again rest).reserved
    rw [hpending, hbacklog, hreleasing, hreserved, List.length_append, List.length_singleton]
    show v.backlog.length + v.releasing + 1 = _
    omega
  · show p.queued ++ [chunk] = p.processed ++ v'.backlog
    rw [hqueued, hbacklog, List.append_assoc]
  · show byteLength p.pushed % 2 ^ 64 = (byteLength p.archived + p.dropped +
      byteLength v'.backlog.flatten + byteLength (again rest).remaining) % 2 ^ 64
    rw [haccount, hbacklog, hremaining, List.flatten_append, History.byteLength_append,
      List.flatten_singleton]
    show (_ + byteLength remaining) % 2 ^ 64 = _
    rw [← hsplit, History.byteLength_append]
    congr 1
    omega
  · show (p.queued ++ [chunk]).flatten ++ (again rest).remaining = p.pushed
    obtain hall | ⟨-, -, hno⟩ := hoffered
    · rw [hremaining, List.flatten_append, List.flatten_singleton, List.append_assoc, hsplit]
      exact hall
    · cases hno
  · intro hgiven
    exact absurd (hgave.symm.trans hgiven) (by decide)

theorem Sound.unreserve {remaining : Text} {i : Issue} (h : Sound timeText id v p)
    (hunreserve : p.producer = .unreserve remaining i) :
    Kept timeText id p v { p with pending := p.pending - 1, producer := .disable remaining i } := by
  obtain ⟨hpending, hqueued, hobserved, haccount, hsmall, hoffered, -, -⟩ := h.delivered
  have hnone := h.unsealed (by rw [hunreserve]; rfl)
  rw [hunreserve] at hpending haccount hoffered
  refine h.works .refl rfl rfl rfl rfl rfl rfl (by rw [hunreserve]; rfl)
    (by rw [hunreserve]; rintro _ _ ⟨⟩)
    ⟨?_, hqueued, hobserved, haccount, hsmall, hoffered, fun hinfo => absurd hnone hinfo, (by rintro ⟨⟩)⟩
    fun hne => absurd rfl hne
  show p.pending - 1 = v.backlog.length + v.releasing + 0
  rw [hpending]
  rfl

theorem Sound.disable {remaining : Text} {i : Issue} (h : Sound timeText id v p)
    (hdisable : p.producer = .disable remaining i) :
    Kept timeText id p v { p with disabled := true, producer := .flag remaining i } := by
  obtain ⟨hpending, hqueued, hobserved, haccount, hsmall, hoffered, -, -⟩ := h.delivered
  have hnone := h.unsealed (by rw [hdisable]; rfl)
  rw [hdisable] at hpending haccount hoffered
  have halarm : Alarm v { p with disabled := true, producer := .flag remaining i } :=
    .inr (.inr ⟨remaining, i, rfl⟩)
  refine h.moves .refl ⟨rfl, rfl, rfl, rfl, fun _ hi => hi, fun _ => .inr ⟨remaining, i, rfl⟩,
    fun hinfo => absurd hnone hinfo⟩ ⟨hpending, hqueued, hobserved, haccount, hsmall, ?_,
    fun hinfo => absurd hnone hinfo, fun _ => rfl⟩ (fun _ => .inl halarm) fun _ => halarm
  exact hoffered.imp_right fun hno => ⟨hno.1, rfl, rfl⟩

theorem Sound.flag {remaining : Text} {i : Issue} (h : Sound timeText id v p)
    (hflag : p.producer = .flag remaining i) :
    Kept timeText id p v { p with issues := p.issues.raise i, producer := .discard remaining } := by
  obtain ⟨hpending, hqueued, hobserved, haccount, hsmall, hoffered, -, hgave⟩ := h.delivered
  have hnone := h.unsealed (by rw [hflag]; rfl)
  have hoff : p.disabled = true := hgave (by rw [hflag]; rfl)
  rw [hflag] at hpending haccount hoffered
  have hraised : p.issues.raise i i = true := by
    rw [Issues.raise, beq_self_eq_true, Bool.true_or]
  have halarm : Alarm v { p with issues := p.issues.raise i, producer := .discard remaining } :=
    .inl ⟨i, hraised⟩
  refine h.moves .refl ⟨rfl, rfl, rfl, rfl, fun j hj => ?_, fun _ => .inl ⟨i, hraised⟩,
    fun hinfo => absurd hnone hinfo⟩ ⟨hpending, hqueued, hobserved, haccount, hsmall, hoffered,
    fun hinfo => absurd hnone hinfo, fun _ => hoff⟩ (fun _ => .inl halarm) fun _ => halarm
  show p.issues.raise i j = true
  rw [Issues.raise, hj, Bool.or_true]

theorem Sound.discard {remaining : Text} (h : Sound timeText id v p)
    (hdiscard : p.producer = .discard remaining) :
    Kept timeText id p v
      { p with dropped := fetchAdd p.dropped (byteLength remaining), producer := .ready } := by
  obtain ⟨hpending, hqueued, hobserved, haccount, hsmall, hoffered, -, hgave⟩ := h.delivered
  have hnone := h.unsealed (by rw [hdiscard]; rfl)
  have hoff : p.disabled = true := hgave (by rw [hdiscard]; rfl)
  rw [hdiscard] at hpending haccount hoffered
  refine h.works .refl rfl rfl rfl rfl rfl rfl (by rw [hdiscard]; rfl) (by rw [hdiscard]; rintro _ _ ⟨⟩)
    ⟨hpending, hqueued, hobserved, ?_, ?_, ?_, fun hinfo => absurd hnone hinfo, (by rintro ⟨⟩)⟩ fun _ => hoff
  · show byteLength p.pushed % 2 ^ 64 = (byteLength p.archived +
      (p.dropped + byteLength remaining) % 2 ^ 64 + byteLength v.backlog.flatten + 0) % 2 ^ 64
    rw [haccount]
    show (_ + byteLength remaining) % 2 ^ 64 = _
    omega
  · show (p.dropped + byteLength remaining) % 2 ^ 64 < 2 ^ 64
    omega
  · -- what is discarded was the rest of what is pushed, or came after it
    right
    refine ⟨?_, hoff, rfl⟩
    obtain hall | ⟨hstart, -, -⟩ := hoffered
    · exact ⟨remaining, hall⟩
    · exact hstart

theorem Sound.seal (h : Sound timeText id v p) (hready : p.producer = .ready) (info : SessionInfo) :
    Kept timeText id p v { p with finalInfo := some info, producer := .sealed } := by
  obtain ⟨hpending, hqueued, hobserved, haccount, hsmall, hoffered, -, -⟩ := h.delivered
  rw [hready] at hpending haccount hoffered
  exact h.works .refl rfl rfl rfl rfl rfl rfl (by rw [hready]; rfl) (by rw [hready]; rintro _ _ ⟨⟩)
    ⟨hpending, hqueued, hobserved, haccount, hsmall, hoffered, fun _ => rfl, (by rintro ⟨⟩)⟩
    fun hne => absurd rfl hne

theorem Sound.timeout (h : Sound timeText id v p) (hsealed : p.producer = .sealed) :
    Kept timeText id p v { p with disabled := true, producer := .timedOut } := by
  obtain ⟨hpending, hqueued, hobserved, haccount, hsmall, hoffered, -, -⟩ := h.delivered
  rw [hsealed] at hpending haccount hoffered
  have hm : Moves p { p with disabled := true, producer := .timedOut } := by
    refine ⟨rfl, rfl, rfl, rfl, fun _ hi => hi, ?_, fun _ => ⟨rfl, rfl, rfl, rfl, rfl⟩⟩
    rintro ⟨t, i, hi⟩
    rw [hsealed] at hi
    cases hi
  exact h.moves .refl hm ⟨hpending, hqueued, hobserved, haccount, hsmall,
    hoffered.imp_right fun hno => ⟨hno.1, rfl, rfl⟩, fun _ => rfl, (by rintro ⟨⟩)⟩ (fun _ => .inr rfl)
    fun hlost => hm.alarm .refl (h.lost hlost)

theorem Sound.timedOut (h : Sound timeText id v p) (hout : p.producer = .timedOut) :
    Kept timeText id p v { p with issues := p.issues.raise .drainTimeout, producer := .sealed } := by
  obtain ⟨hpending, hqueued, hobserved, haccount, hsmall, hoffered, -, -⟩ := h.delivered
  rw [hout] at hpending haccount hoffered
  have halarm : Alarm v { p with issues := p.issues.raise .drainTimeout, producer := .sealed } :=
    .inl ⟨.drainTimeout, rfl⟩
  have hm : Moves p { p with issues := p.issues.raise .drainTimeout, producer := .sealed } := by
    refine ⟨rfl, rfl, rfl, rfl, fun i hi => ?_, fun _ => .inl ⟨.drainTimeout, rfl⟩,
      fun _ => ⟨rfl, rfl, rfl, rfl, rfl⟩⟩
    show p.issues.raise .drainTimeout i = true
    rw [Issues.raise, hi, Bool.or_true]
  exact h.moves .refl hm ⟨hpending, hqueued, hobserved, haccount, hsmall, hoffered, fun _ => rfl,
    (by rintro ⟨⟩)⟩ (fun _ => .inl halarm) fun _ => halarm

end VivadoServer.Diagnostics.Archive.Session
