/-
  VivadoServer.Diagnostics.Account

  The archives account for every byte, however the sessions and the writer take turns:
  each step keeps the session that it is about sound, and the others as they are.
-/

import VivadoServer.Diagnostics.Task
import VivadoServer.Diagnostics.Thread

namespace VivadoServer.Diagnostics.Archive

open VivadoServer.History (Bytes Uuid sliceTo)
open VivadoServer.Sessions (Text byteLength sliceFrom)
open StepSystem
open Session

/-! ## What the writer has found out -/

/-- A session that is ready to be closed stays so. -/
def Ready.Fits (s : System) (ready : Ready) : Prop :=
  ∀ e ∈ ready, ∃ p, s.sessions e.1 = some p ∧ p.Settled e.2

def Rest.Fits (s : System) : Rest → Prop
  | .drop id _ => ∃ p, s.sessions id = some p ∧ Blocked (s.view id) p ∧ Alarm (s.view id) p
  | .close ready _ => Ready.Fits s ready
  | .sweep _ | .stop _ => True

/-- The flags that were read tell all that matters of the session. -/
def Closing (info : SessionInfo) (issues : Issues) (p : Session) : Prop :=
  p.Settled info ∧ (p.dropped ≠ 0 → ∃ i, issues i = true) ∧
    (p.issues .diskError = true → issues .diskError = true)

def Place.Fits (s : System) : Place → Prop
  | .rest r | .disable _ _ r | .flag _ _ r => r.Fits s
  | .look _ ready _ => Ready.Fits s ready
  | .examine id info _ ready _ => Ready.Fits s ready ∧ ∃ p, s.sessions id = some p ∧ p.finalInfo = some info
  | .observe id info issues ready _ =>
    Ready.Fits s ready ∧ ∃ p, s.sessions id = some p ∧ Closing info issues p
  | .sign id info issues observed ready _ =>
    Ready.Fits s ready ∧ ∃ p, s.sessions id = some p ∧ Closing info issues p ∧ observed = p.observed
  | .idle | .write _ _ | .release _ | .serve _ | .tick | .gone => True

/-- What holds between any two steps of the system. -/
structure Inv (timeText : Int → String) (s : System) : Prop where
  blank : ∀ id, s.sessions id = none → (s.view id).Blank
  sound : ∀ id p, s.sessions id = some p → Sound timeText id (s.view id) p
  order : s.line.Pairwise Precedes
  headers : ∀ h, .start h ∈ s.line → ∃ p, s.sessions h.sessionId = some p ∧ p.header = h
  fits : s.place.Fits s

section Invariant

variable {fromStr : FromStr} {timeText : Int → String} {s s' : System} {id : Uuid} {p : Session}

theorem Ready.Fits.mono {ready : Ready} (h : Ready.Fits s ready)
    (hkeeps : ∀ i q info, s.sessions i = some q → q.Settled info →
      ∃ q', s'.sessions i = some q' ∧ q'.Settled info) : Ready.Fits s' ready := by
  intro e he
  obtain ⟨q, hq, hsettled⟩ := h e he
  exact hkeeps e.1 q e.2 hq hsettled

/-- The tasks of the sessions went on. -/
def Later (s s' : System) : Prop :=
  ∀ i q, s.sessions i = some q →
    ∃ q', s'.sessions i = some q' ∧ Beside (s.view i) (s'.view i) ∧ Moves q q'

theorem moves_refl : Moves p p :=
  ⟨rfl, rfl, rfl, rfl, fun _ hi => hi, fun hflag => .inr hflag, fun _ => ⟨rfl, rfl, rfl, rfl, rfl⟩⟩

theorem closing_moves {p' : Session} (hm : Moves p p') {info : SessionInfo} {issues : Issues}
    (h : Closing info issues p) : Closing info issues p' ∧ p'.observed = p.observed := by
  obtain ⟨hsettled, hdropped, hdisk⟩ := h
  obtain ⟨-, -, hobserved, hlost, hissue⟩ := hm.sealed (by rw [hsettled.1]; rintro ⟨⟩)
  refine ⟨⟨hm.settled hsettled, ?_, ?_⟩, hobserved⟩
  · rw [hlost]
    exact hdropped
  · rw [hissue]
    exact hdisk

theorem Rest.Fits.later {r : Rest} (h : r.Fits s) (hlater : Later s s') : r.Fits s' := by
  cases r with
  | drop i text =>
      obtain ⟨q, hq, hblocked, halarm⟩ := h
      obtain ⟨q', hq', hv, hm⟩ := hlater i q hq
      exact ⟨q', hq', hm.blocked hv hblocked, hm.alarm hv halarm⟩
  | close ready next =>
      exact Ready.Fits.mono h fun i q info hq hsettled => by
        obtain ⟨q', hq', -, hm⟩ := hlater i q hq
        exact ⟨q', hq', hm.settled hsettled⟩
  | sweep next => exact trivial
  | stop interrupted => exact trivial

theorem Place.Fits.later {place : Place} (h : place.Fits s) (hlater : Later s s') : place.Fits s' := by
  have hready : ∀ ready, Ready.Fits s ready → Ready.Fits s' ready := fun ready hfits =>
    Rest.Fits.later (r := .close ready .loop) hfits hlater
  cases place with
  | rest r => exact Rest.Fits.later h hlater
  | disable i flag r => exact Rest.Fits.later (r := r) h hlater
  | flag i flag r => exact Rest.Fits.later (r := r) h hlater
  | look todo ready next => exact hready _ h
  | examine i info todo ready next =>
      obtain ⟨hfits, q, hq, hinfo⟩ := h
      obtain ⟨q', hq', -, hm⟩ := hlater i q hq
      exact ⟨hready _ hfits, q', hq', (hm.sealed (by rw [hinfo]; rintro ⟨⟩)).1.trans hinfo⟩
  | observe i info issues ready next =>
      obtain ⟨hfits, q, hq, hclosing⟩ := h
      obtain ⟨q', hq', -, hm⟩ := hlater i q hq
      exact ⟨hready _ hfits, q', hq', (closing_moves hm hclosing).1⟩
  | sign i info issues observed ready next =>
      obtain ⟨hfits, q, hq, hclosing, hobserved⟩ := h
      obtain ⟨q', hq', -, hm⟩ := hlater i q hq
      exact ⟨hready _ hfits, q', hq', (closing_moves hm hclosing).1, hobserved.trans (closing_moves hm hclosing).2.symm⟩
  | idle => exact trivial
  | write i text => exact trivial
  | release i => exact trivial
  | serve header => exact trivial
  | tick => exact trivial
  | gone => exact trivial

/-! ## Steps -/

theorem change_sessions_self (f : Session → Session) (hp : s.sessions id = some p) :
    (s.change id f).sessions id = some (f p) := by
  show Function.update s.sessions id _ id = _
  rw [Function.update_self, hp, Option.map_some]

theorem change_sessions_none (f : Session → Session) (hp : s.sessions id = none) :
    (s.change id f).sessions id = none := by
  show Function.update s.sessions id _ id = _
  rw [Function.update_self, hp, Option.map_none]

theorem change_sessions_other {i : Uuid} (f : Session → Session) (h : i ≠ id) :
    (s.change id f).sessions i = s.sessions i := Function.update_of_ne h _ _

/-- A step that is about one session. -/
theorem Inv.about (h : Inv timeText s) (id : Uuid)
    (hother : ∀ i, i ≠ id → s'.sessions i = s.sessions i ∧ s'.view i = s.view i)
    (hnone : s.sessions id = none → s'.sessions id = none ∧ (s'.view id).Blank)
    (hself : ∀ p, s.sessions id = some p → ∃ p', s'.sessions id = some p' ∧ p'.header = p.header ∧
      Sound timeText id (s'.view id) p')
    (hline : s'.line.Sublist s.line) (hfits : s'.place.Fits s') : Inv timeText s' := by
  refine ⟨fun i hi => ?_, fun i q hi => ?_, h.order.sublist hline, fun header hstart => ?_, hfits⟩
  · by_cases hid : i = id
    · subst hid
      cases hsession : s.sessions i with
      | none => exact (hnone hsession).2
      | some p =>
          obtain ⟨p', hp', -⟩ := hself p hsession
          rw [hp'] at hi
          cases hi
    · obtain ⟨hsame, hview⟩ := hother i hid
      rw [hview]
      exact h.blank i (hsame ▸ hi)
  · by_cases hid : i = id
    · subst hid
      cases hsession : s.sessions i with
      | none =>
          rw [(hnone hsession).1] at hi
          cases hi
      | some p =>
          obtain ⟨p', hp', -, hsound⟩ := hself p hsession
          rw [hp'] at hi
          cases hi
          exact hsound
    · obtain ⟨hsame, hview⟩ := hother i hid
      rw [hview]
      exact h.sound i q (hsame ▸ hi)
  · obtain ⟨p, hp, hheader⟩ := h.headers header (hline.subset hstart)
    by_cases hid : header.sessionId = id
    · rw [hid] at hp ⊢
      obtain ⟨p', hp', hsame, -⟩ := hself p hp
      exact ⟨p', hp', hsame.trans hheader⟩
    · exact ⟨p, (hother _ hid).1.trans hp, hheader⟩

/-- A step of the writer that no session sees. -/
theorem Inv.same (h : Inv timeText s) (hsessions : s'.sessions = s.sessions)
    (hview : ∀ i, s'.view i = s.view i) (hline : s'.line.Sublist s.line) (hfits : s'.place.Fits s') :
    Inv timeText s' :=
  ⟨fun i hi => hview i ▸ h.blank i (hsessions ▸ hi), fun i q hq => hview i ▸ h.sound i q (hsessions ▸ hq),
    h.order.sublist hline, fun header hstart => hsessions ▸ h.headers header (hline.subset hstart), hfits⟩

theorem line_append (place : Place) (queue : List Command) (command : Command) :
    place.line ++ (queue ++ [command]) = place.line ++ queue ++ [command] :=
  (List.append_assoc _ _ _).symm

/-- Nothing comes after the start of a new session, and output comes after all starts. -/
theorem precedes_append {l : List Command} {command : Command} (h : l.Pairwise Precedes)
    (hlast : ∀ c ∈ l, Precedes c command) : (l ++ [command]).Pairwise Precedes := by
  rw [List.pairwise_append]
  refine ⟨h, List.pairwise_singleton _ _, fun a ha b hb => ?_⟩
  obtain rfl := List.mem_singleton.mp hb
  exact hlast a ha

/-- A chunk is sent. -/
theorem Inv.sent (h : Inv timeText s) {f : Session → Session} {chunk : Text}
    (hp : s.sessions id = some p)
    (hkept : ∀ v', Beside (s.view id) v' → v'.backlog = (s.view id).backlog ++ [chunk] →
      v'.releasing = (s.view id).releasing → Kept timeText id p v' (f p)) :
    Inv timeText (({ s with queue := s.queue ++ [.output id chunk] } : System).change id f) := by
  generalize hs' : ({ s with queue := s.queue ++ [.output id chunk] } : System).change id f = s'
  have hline : s'.line = s.line ++ [.output id chunk] := by
    subst hs'
    exact line_append _ _ _
  have hview : ∀ i, s'.view i = { s.view i with
      backlog := (s.view i).backlog ++ outputs i [.output id chunk] } := by
    intro i
    have hout : outputs i s'.line = outputs i s.line ++ outputs i [.output id chunk] := by
      rw [hline, outputs_append]
    have hstart : starts i s'.line = starts i s.line := by
      rw [hline, starts_append]
      rfl
    subst hs'
    show View.mk (outputs i _) (starts i _) _ _ _ = _
    rw [hout, hstart]
    rfl
  have hself : s'.view id = { s.view id with backlog := (s.view id).backlog ++ [chunk] } := by
    have hone : outputs id [.output id chunk] = [chunk] := if_pos rfl
    rw [hview, hone]
  have hother : ∀ i, i ≠ id → s'.view i = s.view i := by
    intro i hi
    have hnone : outputs i [.output id chunk] = [] := if_neg (Ne.symm hi)
    rw [hview, hnone, List.append_nil]
  have hsessions : s'.sessions = (s.change id f).sessions := by
    subst hs'
    rfl
  obtain ⟨hsound, hm⟩ := hkept (s'.view id) (by rw [hself]; exact ⟨rfl, rfl, rfl⟩) (by rw [hself])
    (by rw [hself])
  refine ⟨fun i hi => ?_, fun i q hq => ?_, ?_, fun header hstart => ?_, ?_⟩
  · rw [hsessions] at hi
    by_cases hid : i = id
    · rw [hid, change_sessions_self f hp] at hi
      cases hi
    · rw [hother i hid]
      exact h.blank i (change_sessions_other f hid ▸ hi)
  · rw [hsessions] at hq
    by_cases hid : i = id
    · subst hid
      rw [change_sessions_self f hp] at hq
      cases hq
      exact hsound
    · rw [hother i hid]
      exact h.sound i q (change_sessions_other f hid ▸ hq)
  · rw [hline]
    apply precedes_append h.order
    rintro c - i text header - ⟨⟩
  · rw [hline, List.mem_append, List.mem_singleton] at hstart
    obtain ⟨q, hq, hheader⟩ := h.headers header (hstart.resolve_right (by rintro ⟨⟩))
    rw [hsessions]
    by_cases hid : header.sessionId = id
    · rw [hid] at hq ⊢
      rw [hp] at hq
      cases hq
      exact ⟨f p, change_sessions_self f hp, hm.header.trans hheader⟩
    · exact ⟨q, (change_sessions_other f hid).trans hq, hheader⟩
  · have hplace : s'.place = s.place := by
      subst hs'
      rfl
    rw [hplace]
    refine h.fits.later fun i q hq => ?_
    rw [hsessions]
    by_cases hid : i = id
    · subst hid
      rw [hp] at hq
      cases hq
      exact ⟨f p, change_sessions_self f hp, by rw [hself]; exact ⟨rfl, rfl, rfl⟩, hm⟩
    · exact ⟨q, (change_sessions_other f hid).trans hq, by rw [hother i hid]; exact .refl, moves_refl⟩

/-- A new session is announced. -/
theorem Inv.begins (h : Inv timeText s) {header : Header} (hnew : s.sessions header.sessionId = none) :
    Inv timeText { s with
      queue := s.queue ++ [.start header]
      sessions := Function.update s.sessions header.sessionId (some (.new header)) } := by
  generalize hs' : ({ s with
    queue := s.queue ++ [.start header]
    sessions := Function.update s.sessions header.sessionId (some (.new header)) } : System) = s'
  have hline : s'.line = s.line ++ [.start header] := by
    subst hs'
    exact line_append _ _ _
  have hsessions : s'.sessions = Function.update s.sessions header.sessionId (some (.new header)) := by
    subst hs'
    rfl
  have hview : ∀ i, s'.view i = { s.view i with
      starts := (s.view i).starts + starts i [.start header] } := by
    intro i
    have hout : outputs i s'.line = outputs i s.line := by
      rw [hline, outputs_append]
      exact List.append_nil _
    have hstart : starts i s'.line = starts i s.line + starts i [.start header] := by
      rw [hline, starts_append]
    subst hs'
    show View.mk (outputs i _) (starts i _) _ _ _ = _
    rw [hout, hstart]
    rfl
  have hother : ∀ i, i ≠ header.sessionId → s'.view i = s.view i := by
    intro i hi
    have hnone : starts i [.start header] = 0 := by
      rw [starts, if_neg (Ne.symm hi)]
      rfl
    rw [hview, hnone, Nat.add_zero]
  obtain ⟨hbacklog, hstarts, hreleasing, hstored⟩ := h.blank _ hnew
  have hone : starts header.sessionId [.start header] = 1 := by
    rw [starts, if_pos rfl]
    rfl
  have hsound : Sound timeText header.sessionId (s'.view header.sessionId) (.new header) := by
    rw [hview, hone]
    exact Sound.new hbacklog (congrArg (· + 1) hstarts) hreleasing hstored
  have hnewer : s'.sessions header.sessionId = some (.new header) := by
    rw [hsessions, Function.update_self]
  have holder : ∀ i, i ≠ header.sessionId → s'.sessions i = s.sessions i := by
    intro i hi
    rw [hsessions, Function.update_of_ne hi]
  refine ⟨fun i hi => ?_, fun i q hq => ?_, ?_, fun header' hstart => ?_, ?_⟩
  · by_cases hid : i = header.sessionId
    · rw [hid, hnewer] at hi
      cases hi
    · rw [hother i hid]
      exact h.blank i (holder i hid ▸ hi)
  · by_cases hid : i = header.sessionId
    · subst hid
      rw [hnewer] at hq
      cases hq
      exact hsound
    · rw [hother i hid]
      exact h.sound i q (holder i hid ▸ hq)
  · rw [hline]
    apply precedes_append h.order
    rintro c hc i text header' rfl ⟨⟩ rfl
    -- no output of the session is there yet
    have hmem : ∀ l : List Command, .output header.sessionId text ∈ l → outputs header.sessionId l ≠ [] := by
      intro l hl
      obtain ⟨before, after, rfl⟩ := List.append_of_mem hl
      rw [outputs_append, outputs, if_pos rfl]
      simp
    exact hmem _ hc hbacklog
  · rw [hline, List.mem_append, List.mem_singleton] at hstart
    obtain hold | hlast := hstart
    · obtain ⟨q, hq, hheader⟩ := h.headers header' hold
      have hid : header'.sessionId ≠ header.sessionId := by
        intro heq
        rw [heq, hnew] at hq
        cases hq
      exact ⟨q, (holder _ hid).trans hq, hheader⟩
    · cases hlast
      exact ⟨.new header, hnewer, rfl⟩
  · have hplace : s'.place = s.place := by
      subst hs'
      rfl
    rw [hplace]
    refine h.fits.later fun i q hq => ?_
    have hid : i ≠ header.sessionId := by
      rintro rfl
      rw [hnew] at hq
      cases hq
    exact ⟨q, (holder i hid).trans hq, by rw [hother i hid]; exact .refl, moves_refl⟩

theorem outputs_self {text : Text} {l : List Command} :
    outputs id (.output id text :: l) = text :: outputs id l := if_pos rfl

theorem outputs_other {i : Uuid} {text : Text} {l : List Command} (h : i ≠ id) :
    outputs i (.output id text :: l) = outputs i l := if_neg (Ne.symm h)

/-- Output that is in work comes after the start of its session. -/
theorem Inv.started (h : Inv timeText s) {text : Text} {queue : List Command}
    (hline : s.line = .output id text :: queue) : (s.view id).starts = 0 := by
  have horder := h.order
  rw [hline, List.pairwise_cons] at horder
  show starts id s.line = 0
  rw [hline]
  show starts id queue = 0
  exact starts_eq_zero horder.1

/-- A step of the writer that leads to another place only. -/
theorem Inv.goes (h : Inv timeText s) {place : Place} (hline : place.line = s.place.line)
    (hreleasing : ∀ i, place.releasing i = s.place.releasing i)
    (hraising : ∀ i, place.raising i = s.place.raising i)
    (hfits : place.Fits { s with place := place }) : Inv timeText { s with place := place } := by
  have hsame : ({ s with place := place } : System).line = s.line := congrArg (· ++ s.queue) hline
  refine h.same rfl (fun i => ?_) (hsame ▸ .refl _) hfits
  show View.mk (outputs i _) (starts i _) (place.releasing i) (place.raising i) _ = _
  rw [hsame, hreleasing, hraising]
  rfl

/-- A step of the writer that is about one session. -/
theorem Inv.turns (h : Inv timeText s) (id : Uuid) {f : Session → Session} {w : Writer} {place : Place}
    (hstored : ∀ i, i ≠ id → w.stored i = s.writer.stored i)
    (houtputs : ∀ i, i ≠ id → outputs i place.line = outputs i s.place.line)
    (hstarts : ∀ i, i ≠ id → starts i place.line = starts i s.place.line)
    (hreleasing : ∀ i, i ≠ id → place.releasing i = s.place.releasing i)
    (hraising : ∀ i, i ≠ id → place.raising i = s.place.raising i)
    (hsub : place.line.Sublist s.place.line)
    (hnone : s.sessions id = none → View.Blank ⟨outputs id (place.line ++ s.queue),
      starts id (place.line ++ s.queue), place.releasing id, place.raising id, w.stored id⟩)
    (hself : ∀ p, s.sessions id = some p → (f p).header = p.header ∧ Sound timeText id
      ⟨outputs id (place.line ++ s.queue), starts id (place.line ++ s.queue), place.releasing id,
        place.raising id, w.stored id⟩ (f p))
    (hfits : place.Fits { s.change id f with writer := w, place := place }) :
    Inv timeText { s.change id f with writer := w, place := place } := by
  refine h.about id (fun i hi => ⟨change_sessions_other f hi, ?_⟩)
    (fun hsession => ⟨change_sessions_none f hsession, hnone hsession⟩)
    (fun p hp => ⟨f p, change_sessions_self f hp, hself p hp⟩) (hsub.append (.refl _)) hfits
  show View.mk (outputs i (place.line ++ s.queue)) (starts i (place.line ++ s.queue))
    (place.releasing i) (place.raising i) (w.stored i) =
    View.mk (outputs i (s.place.line ++ s.queue)) (starts i (s.place.line ++ s.queue)) _ _ _
  rw [outputs_append, starts_append, outputs_append, starts_append, hstored i hi, houtputs i hi,
    hstarts i hi, hreleasing i hi, hraising i hi]

/-- A step of the writer that leaves the sessions as they are. -/
theorem Inv.turns' (h : Inv timeText s) (id : Uuid) {w : Writer} {place : Place}
    (hstored : ∀ i, i ≠ id → w.stored i = s.writer.stored i)
    (houtputs : ∀ i, i ≠ id → outputs i place.line = outputs i s.place.line)
    (hstarts : ∀ i, i ≠ id → starts i place.line = starts i s.place.line)
    (hreleasing : ∀ i, i ≠ id → place.releasing i = s.place.releasing i)
    (hraising : ∀ i, i ≠ id → place.raising i = s.place.raising i)
    (hsub : place.line.Sublist s.place.line)
    (hnone : s.sessions id = none → View.Blank ⟨outputs id (place.line ++ s.queue),
      starts id (place.line ++ s.queue), place.releasing id, place.raising id, w.stored id⟩)
    (hself : ∀ p, s.sessions id = some p → Sound timeText id
      ⟨outputs id (place.line ++ s.queue), starts id (place.line ++ s.queue), place.releasing id,
        place.raising id, w.stored id⟩ p)
    (hfits : place.Fits { s with writer := w, place := place }) :
    Inv timeText { s with writer := w, place := place } := by
  have hsame : s.change id (fun p => p) = s := by
    unfold System.change
    rw [Option.map_id', Function.update_eq_self]
  have := h.turns id (f := fun p => p) hstored houtputs hstarts hreleasing hraising hsub hnone
    (fun p hp => ⟨rfl, hself p hp⟩) (by rw [hsame]; exact hfits)
  rwa [hsame] at this

theorem Inv.write (h : Inv timeText s) (c : Course) {text : Text} (hplace : s.place = .write id text)
    (hp : s.sessions id = some p) : Inv timeText (s.write fromStr timeText c id text p) := by
  have hsound := h.sound id p hp
  have hline : s.line = .output id text :: s.queue := by
    rw [System.line, hplace]
    rfl
  have hstarts := h.started hline
  have hview : s.view id = ⟨text :: outputs id s.queue, starts id s.queue, 0, none, s.writer.stored id⟩ := by
    show View.mk (outputs id s.line) (starts id s.line) (s.place.releasing id) (s.place.raising id) _ = _
    rw [hline, outputs_self, hplace]
    rfl
  rw [hview] at hsound
  have hbusy : p.pending ≠ 0 := by
    rw [hsound.delivered.pending, List.length_cons]
    omega
  have hempty : starts id s.queue = 0 := by
    rw [hview] at hstarts
    exact hstarts
  -- on the way to the dropping of the text
  have hdrops : Blocked ⟨text :: outputs id s.queue, starts id s.queue, 0, none, s.writer.stored id⟩ p →
      Alarm ⟨text :: outputs id s.queue, starts id s.queue, 0, none, s.writer.stored id⟩ p →
      Inv timeText { s with place := .rest (.drop id text) } := fun hblocked halarm =>
    h.goes (by rw [hplace]; rfl) (by rw [hplace]; exact fun _ => rfl) (by rw [hplace]; exact fun _ => rfl)
      ⟨p, hp, hblocked, halarm⟩
  unfold System.write
  generalize hr : s.writer.output fromStr timeText id p.issues text c.now c.time c.prune c.write = r
  have hputs := output_puts fromStr timeText p.issues text c.now c.time c.prune
    c.write s.writer id
  rw [hr] at hputs
  cases hputs with
  | closed hfind =>
      refine hdrops (.inr ⟨stored_eq_none.mpr hfind, hempty⟩) ?_
      obtain halarm | ⟨info, -, hidle⟩ := hsound.missing (stored_eq_none.mpr hfind) hempty
      · exact halarm
      · exact absurd hidle hbusy
  | flagged i hfatal hissue => exact hdrops (.inl ⟨i, hfatal, .inl hissue⟩) (.inl ⟨i, hissue⟩)
  | @refused w' i hfatal hsame =>
      have hraises : (Place.disable id i (.drop id text)).raising id = some i := if_pos rfl
      refine h.turns' id (fun i _ => hsame i) (fun _ _ => by rw [hplace]; rfl) (fun _ _ => by rw [hplace]; rfl)
        (fun _ _ => by rw [hplace]; rfl) (fun j hj => ?_) (by rw [hplace]; exact .refl _)
        (fun hnone => absurd (hp.symm.trans hnone) (by rintro ⟨⟩)) (fun q hq => ?_) ⟨p, hp, ?_, ?_⟩
      · rw [hplace]
        exact if_neg (Ne.symm hj)
      · rw [hp] at hq
        cases hq
        have hraised := hsound.raise rfl i
        rw [hraises, hsame]
        show Sound timeText id ⟨outputs id (.output id text :: s.queue), _, _, _, _⟩ p
        rw [outputs_self]
        exact hraised
      · exact .inl ⟨i, hfatal, .inr hraises⟩
      · refine .inr (.inl ?_)
        show (Place.disable id i (.drop id text)).raising id ≠ none
        rw [hraises]
        rintro ⟨⟩
  | @archives w' a hfind hclear hsame =>
      obtain rfl := find_id hfind
      have hstored : s.writer.stored a.id = some (a, s.writer.directory.lookup a.id) := stored_of_find hfind
      obtain ⟨⟨f, hf, hwhole⟩, hall⟩ := hsound.whole hstored rfl hclear
      rw [hf] at hstored
      obtain ⟨⟨a', f', hstored', hwrote⟩, hothers⟩ := archive_wrote (outputRecord timeText c.now text) text
        c.time c.write ((hsame _).trans hstored) hwhole
      generalize w'.archive a (outputRecord timeText c.now text) text c.time c.write = r at *
      obtain ⟨w'', outcome⟩ := r
      cases hwrote with
      | archived hwhole' hid hbytes =>
          refine h.turns a.id (fun i hi => (hothers i hi).trans (hsame i))
            (fun i hi => by rw [hplace]; exact (outputs_other hi).symm) (fun _ _ => by rw [hplace]; rfl)
            (fun i hi => by rw [hplace]; exact if_neg (Ne.symm hi)) (fun _ _ => by rw [hplace]; rfl)
            (List.nil_sublist _) (fun hnone => absurd (hp.symm.trans hnone) (by rintro ⟨⟩))
            (fun q hq => ?_) trivial
          rw [hp] at hq
          cases hq
          have hwritten := hsound.writes c.now rfl rfl hempty hstored hall hwhole' hid hbytes
          have hreleases : (Place.release a.id).releasing a.id = 1 := if_pos rfl
          rw [hreleases, hstored']
          exact ⟨rfl, hwritten⟩
      | torn torn hlength hpadded hid hbytes =>
          have hraises : (Place.disable a.id .diskError (.drop a.id text)).raising a.id = some .diskError :=
            if_pos rfl
          refine h.turns' a.id (fun i hi => (hothers i hi).trans (hsame i)) (fun _ _ => by rw [hplace]; rfl)
            (fun _ _ => by rw [hplace]; rfl) (fun _ _ => by rw [hplace]; rfl) (fun j hj => ?_)
            (by rw [hplace]; exact .refl _)
            (fun hnone => absurd (hp.symm.trans hnone) (by rintro ⟨⟩)) (fun q hq => ?_) ⟨p, hp, ?_, ?_⟩
          · rw [hplace]
            exact if_neg (Ne.symm hj)
          · rw [hp] at hq
            cases hq
            have htorn := hsound.torn rfl hempty hstored hlength hpadded hid hbytes
            rw [hraises, hstored']
            show Sound timeText a.id ⟨outputs a.id (.output a.id text :: s.queue), _, _, _, _⟩ p
            rw [outputs_self]
            exact htorn
          · exact .inl ⟨.diskError, rfl, .inr hraises⟩
          · refine .inr (.inl ?_)
            show (Place.disable a.id .diskError (.drop a.id text)).raising a.id ≠ none
            rw [hraises]
            rintro ⟨⟩

section Places

variable {w : Writer} {queue : List Command} {stopping : Bool} {sessions : Uuid → Option Session}

theorem Ready.Fits.same {ready : Ready} (h : Ready.Fits s ready) (hsessions : s'.sessions = s.sessions) :
    Ready.Fits s' ready := by
  intro e he
  rw [hsessions]
  exact h e he

/-- A change of a session that leaves what it is settled with. -/
theorem Ready.Fits.change {ready : Ready} (h : Ready.Fits s ready) {f : Session → Session}
    (hf : ∀ q info, q.Settled info → (f q).Settled info) (hsessions : s'.sessions = (s.change id f).sessions) :
    Ready.Fits s' ready := by
  refine h.mono fun i q info hq hsettled => ?_
  rw [hsessions]
  by_cases hi : i = id
  · subst hi
    exact ⟨f q, change_sessions_self f hq, hf q info hsettled⟩
  · exact ⟨q, (change_sessions_other f hi).trans hq, hsettled⟩

theorem Inv.flags {i : Issue} {r : Rest} (h : Inv timeText ⟨w, .flag id i r, queue, stopping, sessions⟩) :
    Inv timeText { System.change id (fun p => { p with issues := p.issues.raise i })
      ⟨w, .flag id i r, queue, stopping, sessions⟩ with place := .rest r } := by
  have hraises : (Place.flag id i r).raising id = some i := if_pos rfl
  refine h.turns id (fun _ _ => rfl) (fun _ _ => rfl) (fun _ _ => rfl) (fun _ _ => rfl)
    (fun j hj => (if_neg (Ne.symm hj)).symm) (.refl _) (fun hnone => ?_)
    (fun q hq => ⟨rfl, (h.sound id q hq).flagged hraises⟩) ?_
  · obtain ⟨hbacklog, hstarts, hreleasing, hstored⟩ := h.blank id hnone
    exact ⟨hbacklog, hstarts, hreleasing, hstored⟩
  · cases r with
    | drop j text =>
        obtain ⟨p, hp, hblocked, halarm⟩ := h.fits
        by_cases hj : j = id
        · subst hj
          refine ⟨_, change_sessions_self _ hp, ?_, .inl ⟨i, raise_self _ i⟩⟩
          obtain ⟨k, hfatal, hissue | hraised⟩ | hgone := hblocked
          · exact .inl ⟨k, hfatal, .inl (raise_of hissue)⟩
          · have heq : some i = some k := hraises.symm.trans hraised
            cases heq
            exact .inl ⟨i, hfatal, .inl (raise_self _ i)⟩
          · exact .inr hgone
        · refine ⟨p, (change_sessions_other _ hj).trans hp, ?_, ?_⟩
          · obtain ⟨k, hfatal, hissue | hraised⟩ | hgone := hblocked
            · exact .inl ⟨k, hfatal, .inl hissue⟩
            · have hnone : (Place.flag id i (.drop j text)).raising j = none := if_neg (Ne.symm hj)
              exact absurd (hnone.symm.trans hraised) (by rintro ⟨⟩)
            · exact .inr hgone
          · obtain hissue | hraised | hflag := halarm
            · exact .inl hissue
            · exact absurd (if_neg (Ne.symm hj)) hraised
            · exact .inr (.inr hflag)
    | close ready next =>
        exact Ready.Fits.change (f := fun p => { p with issues := p.issues.raise i }) h.fits
          (fun q info hsettled => hsettled) rfl
    | sweep next => exact trivial
    | stop interrupted => exact trivial

/-- The flags of a session that is ready are read. -/
theorem Sound.closing {v : View} {info : SessionInfo} (h : Sound timeText id v p)
    (hraising : v.raising = none) (hsettled : p.Settled info) : Closing info p.issues p := by
  refine ⟨hsettled, fun hlost => ?_, fun hdisk => hdisk⟩
  obtain hissue | hraised | ⟨t, i, hflag⟩ := h.lost hlost
  · exact hissue
  · exact absurd hraising hraised
  · have hclosed := h.delivered.closed (by rw [hsettled.1]; rintro ⟨⟩)
    rw [hflag] at hclosed
    cases hclosed

end Places

end Invariant

def sampleCourse (order : List Uuid) : Course where
  prune := ⟨[], fun _ => 0, none⟩
  create := .done
  write := .done
  footer := .done
  order := order
  now := 0
  time := 0
  minute := false

def sampleHeader : Header := ⟨5, "p", 0⟩

def sampleActions : List Action :=
  [.begin sampleHeader, .receive, .work (sampleCourse []), .work (sampleCourse []), .work (sampleCourse []),
    .work (sampleCourse []), .work (sampleCourse [5]), .work (sampleCourse [5]), .work (sampleCourse [5]),
    .work (sampleCourse [5]), .work (sampleCourse [5]), .push 5 ['h', 'i'], .produce 5, .produce 5, .produce 5,
    .seal 5 ⟨"p", none, some 0, none, false⟩, .receive, .work (sampleCourse [5]), .work (sampleCourse [5]),
    .work (sampleCourse [5]), .work (sampleCourse [5]), .work (sampleCourse [5]), .work (sampleCourse [5]),
    .work (sampleCourse [5]), .work (sampleCourse [5]), .work (sampleCourse [5])]

def sampleTime (_ : Int) : String := "1970-01-01T00:00:00Z"

end VivadoServer.Diagnostics.Archive
