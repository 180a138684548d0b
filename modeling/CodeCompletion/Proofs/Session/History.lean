import CodeCompletion.Proofs.Session.Run
import CodeCompletion.Proofs.Text.Place
import Mathlib.Data.List.Basic

/-! A session that analyses every change answers from the text and the caret alone.
Whatever was asked before, and whichever background parses have come back, a text that
can be parsed is completed as in a new session. -/
namespace CodeCompletion.Session

/-- If the text that was analysed last can be parsed, the session holds its analysis. Of a
text that cannot be parsed nothing is known: the analysis may be that of any earlier one. -/
def UpToDate (s : Session) : Prop :=
  ∀ site, s.analyzed = some site →
    ∀ shape, analysis? s.settings.limits site = some shape → s.scope = some shape

theorem start_upToDate (settings : Settings) (realm : Option Realm) :
    (start settings realm).UpToDate := by
  intro site analyzed
  cases analyzed

theorem carryOut_upToDate (s : Session) (r : Rebuild) : (s.carryOut r).UpToDate := by
  intro site analyzed shape found
  cases analyzed
  have found : analysis? s.settings.limits r.site = some shape := found
  simp [carryOut,found]

/-- A rebuild establishes the invariant whatever held before; no other request touches
what it speaks of. -/
theorem after_upToDate (s : Session) (q : Request) (valid : s.UpToDate) :
    (s.after q).UpToDate := by
  cases rebuild : s.rebuild? q with
  | some r =>
    rw [after_of_rebuild s q r rebuild]
    exact carryOut_upToDate s r
  | none =>
    rw [after_of_idle s q rebuild]
    split <;> exact valid

theorem reachable_upToDate {settings : Settings} {realm : Option Realm} {t : System}
    (reached : System.Reachable settings realm t) : t.session.UpToDate := by
  apply System.reachable_induction (start_upToDate settings realm) ?_ reached
  intro t t' valid step
  cases step with
  | ask q _ => exact after_upToDate t.session q valid
  | lose _ => exact valid

/-- An up-to-date session has the analysis of a site before it answers for it, since it
would otherwise have to rebuild. -/
theorem complete_upToDate (s : Session) (site : Site) (intent : Intent) (shape : Shape)
    (valid : s.UpToDate) (onChange : s.settings.refresh = .onChange)
    (context : contextAt site.source site.caret = some intent)
    (found : analysis? s.settings.limits site = some shape) :
    (s.complete site).1 =
      ranked intent (some shape) (if s.settings.sandbox then s.realm else none)
        s.settings.keywords s.settings.limits := by
  by_cases current : s.analyzed = some site
  · have scope := valid site current shape found
    simp [complete,context,isDue,onChange,current,answer,scope]
  · simp [complete,context,isDue,onChange,current,answer,analyze_eq,carryOut,found]

/-- In every state that a run can reach, a text that can be parsed gets the candidates that
its own analysis ranks, as a new session would give. -/
theorem complete_history_independent (settings : Settings) (realm : Option Realm) (t : System)
    (site : Site) (intent : Intent) (program : Program)
    (onChange : settings.refresh = .onChange) (reached : System.Reachable settings realm t)
    (context : contextAt site.source site.caret = some intent)
    (parsed : parseEdited site.source site.caret (some intent) = .ok program) :
    (t.session.complete site).1 =
      ranked intent (some (visibleAt program.body site.caret settings.limits))
        (if settings.sandbox then realm else none) settings.keywords settings.limits ∧
    (t.session.complete site).1 = ((start settings realm).complete site).1 := by
  obtain ⟨rfl, rfl⟩ := System.reachable_settings reached
  have found : analysis? t.session.settings.limits site = some _ :=
    analysis?_eq_some_iff.mpr ⟨program, by rwa [parseAt,context], rfl⟩
  have here := complete_upToDate t.session site intent _ (reachable_upToDate reached) onChange
    context found
  have fresh := complete_upToDate (start t.session.settings t.session.realm) site intent _
    (start_upToDate _ _) onChange context found
  exact ⟨here, here.trans fresh.symm⟩

/-- A run that ends with a text that cannot be parsed, and with a background parse in
flight that the rebuild has overtaken. -/
def interrupted : System :=
  (((System.start {} none).after (.complete ⟨"b", ⟨0, 1⟩⟩)).after
    (.request ⟨"c", ⟨0, 1⟩⟩)).after (.analyze ⟨"(", ⟨0, 1⟩⟩)

theorem interrupted_reachable : System.Reachable {} none interrupted :=
  ((Relation.ReflTransGen.refl.tail (.ask _ _ (by simp))).tail (.ask _ _ (by simp))).tail
    (.ask _ _ (by simp))

def repairedProgram : Program :=
  ⟨[.expr (firstLine 0 17) (.member (firstLine 0 17) (.ident (firstLine 0 1) "a")
    (.name ⟨placeholder, firstLine 2 17⟩) false)], firstLine 0 17⟩

theorem complete_history_independent_interrupted :
    (interrupted.session.complete ⟨"a.", ⟨0, 2⟩⟩).1 =
      ranked ⟨.property, ["a"]⟩ (some (visibleAt repairedProgram.body ⟨0, 2⟩ {})) none true {} ∧
    (interrupted.session.complete ⟨"a.", ⟨0, 2⟩⟩).1 =
      ((start {} none).complete ⟨"a.", ⟨0, 2⟩⟩).1 := by
  have context : contextAt "a." ⟨0, 2⟩ = some ⟨.property, ["a"]⟩ := by decide +kernel
  have inserted : withPlaceholder? "a." ⟨0, 2⟩ = some "a.__augur_caret__" := by decide +kernel
  have lexed : lexText "a.__augur_caret__" = .ok [⟨.word "a", firstLine 0 1, false⟩,
      ⟨.dot, firstLine 1 2, false⟩, ⟨.word "__augur_caret__", firstLine 2 17, false⟩,
      ⟨.endOfInput, firstLine 17 17, false⟩] := by decide +kernel
  have repaired : parseText "a.__augur_caret__" = .ok repairedProgram := by
    rw [parseText,lexed]
    cbv
  have parsed : parseEdited "a." ⟨0, 2⟩ (some ⟨.property, ["a"]⟩) = .ok repairedProgram := by
    cases broken : parseText "a." with
    | ok program =>
      have fails : (parseText "a.").isOk = false := by decide +kernel
      rw [broken] at fails
      cases fails
    | error e => simp [parseEdited,broken,inserted,repaired]
  exact complete_history_independent {} none interrupted ⟨"a.", ⟨0, 2⟩⟩ _ _ rfl
    interrupted_reachable context parsed

end CodeCompletion.Session
