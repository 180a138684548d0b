import CodeCompletion.Session.Basic
import Mathlib.Logic.Relation

/-! Runs of a session that has background parses in flight. A request rebuilds the
analysis at once or not at all, and `after_of_rebuild` and `after_of_idle` say all that
it does to the session in either case. A run interleaves requests in any order; a
background parse is taken back at most once, and may never be. -/
namespace CodeCompletion.Session

def analysis? (limits : Limits) (site : Site) : Option Shape :=
  match parseAt site.source site.caret with
  | .ok program => some (visibleAt program.body site.caret limits)
  | .error _ => none

theorem analysis?_eq_some_iff {limits : Limits} {site : Site} {shape : Shape} :
    analysis? limits site = some shape ↔ ∃ program,
      parseAt site.source site.caret = .ok program ∧
      shape = visibleAt program.body site.caret limits := by
  cases parsed : parseAt site.source site.caret <;> simp [analysis?,parsed,eq_comm]

/-- An attempt to replace the analysis, under the number it was requested with. -/
abbrev Rebuild := BackgroundParse

inductive Request where
  | complete (site : Site)
  | completeChecked (site : Site)
  | analyze (site : Site)
  | request (site : Site)
  | receive (pending : BackgroundParse)

def after (s : Session) : Request → Session
  | .complete site => (s.complete site).2
  | .completeChecked site => (s.completeChecked site).2
  | .analyze site => s.analyze site
  | .request site => (s.request site).2
  | .receive pending => (s.receive pending).2

def rebuildAt? (s : Session) (site : Site) : Option Rebuild :=
  if (contextAt site.source site.caret).isSome ∧ s.isDue site = true then
    some ⟨site, s.version + 1⟩
  else none

def rebuild? (s : Session) : Request → Option Rebuild
  | .complete site => s.rebuildAt? site
  | .completeChecked site =>
    if (caretOffset? site.source site.caret).isSome then s.rebuildAt? site else none
  | .analyze site => some ⟨site, s.version + 1⟩
  | .request _ => none
  | .receive pending => if pending.version = s.version then some pending else none

/-- A rebuild replaces the analysis only when its text can be parsed. -/
def carryOut (s : Session) (r : Rebuild) : Session :=
  { s with
    scope := (analysis? s.settings.limits r.site).or s.scope
    analyzed := some r.site
    version := r.version }

theorem analyze_eq (s : Session) (site : Site) :
    s.analyze site = s.carryOut ⟨site, s.version + 1⟩ := by
  cases parsed : parseAt site.source site.caret <;>
    simp [analyze,carryOut,analysis?,replace,parsed]

theorem receive_newest (s : Session) (pending : BackgroundParse)
    (newest : pending.version = s.version) :
    (s.receive pending).2 = s.carryOut pending := by
  cases parsed : parseAt pending.site.source pending.site.caret <;>
    simp [receive,newest,carryOut,analysis?,replace,parsed]

theorem receive_stale (s : Session) (pending : BackgroundParse)
    (stale : pending.version ≠ s.version) : s.receive pending = (.ok false, s) := by
  simp [receive,stale]

theorem complete_session (s : Session) (site : Site) :
    (s.complete site).2 = ((s.rebuildAt? site).map s.carryOut).getD s := by
  cases context : contextAt site.source site.caret with
  | none => simp [complete,rebuildAt?,context]
  | some intent =>
    cases due : s.isDue site with
    | true => simp [complete,rebuildAt?,context,due,analyze_eq]
    | false => simp [complete,rebuildAt?,context,due]

theorem completeChecked_session (s : Session) (site : Site) :
    (s.completeChecked site).2 =
      if (caretOffset? site.source site.caret).isSome then (s.complete site).2 else s := by
  unfold completeChecked requireCaret
  split <;> rename_i refused <;> split at refused <;> simp_all

/-- A rebuild is all that happens to the session of a request that carries one out. -/
theorem after_of_rebuild (s : Session) (q : Request) (r : Rebuild) (h : s.rebuild? q = some r) :
    s.after q = s.carryOut r := by
  cases q with
  | complete site =>
    simp only [rebuild?] at h
    simp [after,complete_session,h]
  | completeChecked site =>
    simp only [rebuild?] at h
    split at h
    · simp_all [after,completeChecked_session,complete_session]
    · contradiction
  | analyze site =>
    cases h
    exact analyze_eq s site
  | request site => contradiction
  | receive pending =>
    simp only [rebuild?] at h
    split at h
    · cases h
      exact receive_newest s _ ‹_›
    · contradiction

/-- Any other request changes the number of requests at most. -/
theorem after_of_idle (s : Session) (q : Request) (h : s.rebuild? q = none) :
    s.after q = match q with
      | .request _ => { s with version := s.version + 1 }
      | _ => s := by
  cases q with
  | complete site =>
    simp only [rebuild?] at h
    simp [after,complete_session,h]
  | completeChecked site =>
    simp only [rebuild?] at h
    split at h <;> simp_all [after,completeChecked_session,complete_session]
  | analyze site => contradiction
  | request site => rfl
  | receive pending =>
    simp only [rebuild?] at h
    split at h
    · contradiction
    · simp only [after,receive_stale s pending ‹_›]

/-- A rebuild carries the number of the newest request. -/
theorem rebuild_version (s : Session) (q : Request) (r : Rebuild) (h : s.rebuild? q = some r) :
    s.version < r.version ∨ q = .receive r ∧ r.version = s.version := by
  cases q with
  | complete site =>
    simp only [rebuild?,rebuildAt?] at h
    split at h <;> cases h
    exact Or.inl (Nat.lt_succ_self _)
  | completeChecked site =>
    simp only [rebuild?,rebuildAt?] at h
    split at h <;> try split at h
    all_goals cases h
    exact Or.inl (Nat.lt_succ_self _)
  | analyze site =>
    cases h
    exact Or.inl (Nat.lt_succ_self _)
  | request site => contradiction
  | receive pending =>
    simp only [rebuild?] at h
    split at h <;> cases h
    exact Or.inr ⟨rfl, ‹_›⟩

theorem after_settings (s : Session) (q : Request) :
    (s.after q).settings = s.settings ∧ (s.after q).realm = s.realm := by
  cases rebuild : s.rebuild? q with
  | some r => simp [after_of_rebuild s q r rebuild,carryOut]
  | none =>
    rw [after_of_idle s q rebuild]
    split <;> exact ⟨rfl, rfl⟩

/-- A session, the background parses it has not taken back, and the rebuilds that have
replaced its analysis, newest first. -/
@[ext]
structure System where
  session : Session
  outstanding : List BackgroundParse
  replaced : List Rebuild

namespace System

def start (settings : Settings) (realm : Option Realm) : System :=
  ⟨.start settings realm, [], []⟩

def replacement? (t : System) (q : Request) : Option Rebuild :=
  (t.session.rebuild? q).filter fun r =>
    (analysis? t.session.settings.limits r.site).isSome

def after (t : System) (q : Request) : System where
  session := t.session.after q
  outstanding :=
    match q with
    | .request site => (t.session.request site).1 :: t.outstanding
    | .receive pending => t.outstanding.erase pending
    | _ => t.outstanding
  replaced := (t.replacement? q).toList ++ t.replaced

/-- Only a background parse that is outstanding can be taken back. One that is lost, since
it is given up or its worker fails, leaves the session alone. -/
inductive Step : System → System → Prop where
  | ask (t : System) (q : Request)
      (outstanding : ∀ pending, q = .receive pending → pending ∈ t.outstanding) :
      Step t (t.after q)
  | lose (t : System) (pending : BackgroundParse) :
      Step t { t with outstanding := t.outstanding.erase pending }

def Reachable (settings : Settings) (realm : Option Realm) : System → Prop :=
  Relation.ReflTransGen Step (start settings realm)

/-- What holds at the start and is kept by every step holds throughout every run. -/
theorem reachable_induction {settings : Settings} {realm : Option Realm} {P : System → Prop}
    (initial : P (start settings realm)) (step : ∀ t t', P t → Step t t' → P t')
    {t : System} (reached : Reachable settings realm t) : P t := by
  induction reached with
  | refl => exact initial
  | tail _ last ih => exact step _ _ ih last

/-- Neither the settings nor the live objects ever change. -/
theorem reachable_settings {settings : Settings} {realm : Option Realm} {t : System}
    (reached : Reachable settings realm t) :
    t.session.settings = settings ∧ t.session.realm = realm := by
  apply reachable_induction ⟨rfl, rfl⟩ ?_ reached
  intro t t' kept step
  cases step with
  | ask q _ =>
    have same := after_settings t.session q
    exact ⟨same.1.trans kept.1, same.2.trans kept.2⟩
  | lose _ => exact kept

end System

end CodeCompletion.Session
