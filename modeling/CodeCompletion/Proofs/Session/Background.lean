import CodeCompletion.Proofs.Session.Run
import Mathlib.Data.List.Pairwise

/-! Background parses race with each other and with rebuilds through one version counter.
In every run the rebuilds that replace the analysis have increasing versions, the analysis
is that of the last of them, and the order in which outstanding parses are taken back does
not matter. -/
namespace CodeCompletion.Session.System

/-- Versions are handed out once. The last field is what separates a parse that is still
outstanding from one that has already replaced the analysis. -/
structure Versioned (t : System) : Prop where
  outstanding_le : ∀ p ∈ t.outstanding, p.version ≤ t.session.version
  distinct : t.outstanding.Pairwise fun p q => p.version ≠ q.version
  replaced_le : ∀ r ∈ t.replaced, r.version ≤ t.session.version
  increasing : t.replaced.Pairwise fun newer older => older.version < newer.version
  untaken : ∀ p ∈ t.outstanding, ∀ r ∈ t.replaced, r.version ≠ p.version

theorem start_versioned (settings : Settings) (realm : Option Realm) :
    (start settings realm).Versioned := by
  constructor <;> simp [start]

theorem lose_versioned (t : System) (p : BackgroundParse) (valid : t.Versioned) :
    Versioned { t with outstanding := t.outstanding.erase p } where
  outstanding_le q member := valid.outstanding_le q (List.mem_of_mem_erase member)
  distinct := valid.distinct.sublist List.erase_sublist
  replaced_le := valid.replaced_le
  increasing := valid.increasing
  untaken q member := valid.untaken q (List.mem_of_mem_erase member)

/-- What is left after a parse is taken back has other versions. -/
theorem version_ne_of_mem_erase {t : System} (valid : t.Versioned) {p q : BackgroundParse}
    (outstanding : p ∈ t.outstanding) (member : q ∈ t.outstanding.erase p) :
    p.version ≠ q.version := by
  have apart := ((List.perm_cons_erase outstanding).pairwise_iff Ne.symm).mp valid.distinct
  exact List.rel_of_pairwise_cons apart member

theorem replaced_after (t : System) (q : Request) (r : Rebuild)
    (rebuild : t.session.rebuild? q = some r) :
    (t.after q).replaced =
      if (analysis? t.session.settings.limits r.site).isSome then r :: t.replaced
      else t.replaced := by
  cases parsed : analysis? t.session.settings.limits r.site <;>
    simp [after,replacement?,rebuild,parsed,Option.filter]

theorem replaced_after_idle (t : System) (q : Request) (idle : t.session.rebuild? q = none) :
    (t.after q).replaced = t.replaced := by
  simp [after,replacement?,idle]

theorem mem_replaced_after {t : System} {q : Request} {r r' : Rebuild}
    (rebuild : t.session.rebuild? q = some r) (member : r' ∈ (t.after q).replaced) :
    r' = r ∨ r' ∈ t.replaced := by
  rw [replaced_after t q r rebuild] at member
  split at member
  · exact List.mem_cons.mp member
  · exact Or.inr member

/-- A rebuild either has a new version, or takes back the newest request, whose version no
earlier rebuild and no other outstanding parse has. -/
theorem rebuild_versioned (t : System) (q : Request) (r : Rebuild)
    (rebuild : t.session.rebuild? q = some r)
    (outstanding : ∀ p, q = .receive p → p ∈ t.outstanding) (valid : t.Versioned) :
    (t.after q).Versioned := by
  have version : (t.after q).session.version = r.version := by
    simp [after,after_of_rebuild _ _ _ rebuild,carryOut]
  have noRequest : ∀ site, q ≠ .request site := by
    rintro site rfl
    cases rebuild
  have rest : ∀ p ∈ (t.after q).outstanding, p ∈ t.outstanding ∧ r.version ≠ p.version := by
    intro p member
    rcases rebuild_version _ _ _ rebuild with newer | ⟨rfl, _⟩
    · have kept : p ∈ t.outstanding := by
        cases q with
        | request site => exact absurd rfl (noRequest site)
        | receive _ => exact List.mem_of_mem_erase member
        | _ => exact member
      have := valid.outstanding_le p kept
      exact ⟨kept, by omega⟩
    · exact ⟨List.mem_of_mem_erase member,
        version_ne_of_mem_erase valid (outstanding r rfl) member⟩
  have earlier : ∀ r' ∈ t.replaced, r'.version < r.version := by
    intro r' member
    have bound := valid.replaced_le r' member
    rcases rebuild_version _ _ _ rebuild with newer | ⟨rfl, newest⟩
    · omega
    · have := valid.untaken r (outstanding r rfl) r' member
      omega
  have grows : t.session.version ≤ r.version := by
    rcases rebuild_version _ _ _ rebuild with newer | ⟨_, newest⟩ <;> omega
  constructor
  · intro p member
    have := valid.outstanding_le p (rest p member).1
    omega
  · cases q with
    | request site => exact absurd rfl (noRequest site)
    | receive _ => exact valid.distinct.sublist List.erase_sublist
    | _ => exact valid.distinct
  · intro r' member
    rcases mem_replaced_after rebuild member with rfl | old
    · exact Nat.le_of_eq version.symm
    · have := earlier r' old
      omega
  · rw [replaced_after t q r rebuild]
    split
    · exact valid.increasing.cons earlier
    · exact valid.increasing
  · intro p member r' replaced
    rcases mem_replaced_after rebuild replaced with rfl | old
    · exact (rest p member).2
    · exact valid.untaken p (rest p member).1 r' old

theorem idle_versioned (t : System) (q : Request) (idle : t.session.rebuild? q = none)
    (valid : t.Versioned) : (t.after q).Versioned := by
  have session : (t.after q).session = _ := after_of_idle t.session q idle
  have replaced := replaced_after_idle t q idle
  cases q with
  | request site =>
    constructor
    · intro p member
      rw [session]
      rcases List.mem_cons.mp member with rfl | old
      · exact Nat.le_refl _
      · exact Nat.le_succ_of_le (valid.outstanding_le p old)
    · refine valid.distinct.cons fun p member => ?_
      exact Nat.ne_of_gt (Nat.lt_succ_of_le (valid.outstanding_le p member))
    · rw [replaced,session]
      exact fun r member => Nat.le_succ_of_le (valid.replaced_le r member)
    · exact replaced ▸ valid.increasing
    · rw [replaced]
      intro p member r old
      rcases List.mem_cons.mp member with rfl | kept
      · exact Nat.ne_of_lt (Nat.lt_succ_of_le (valid.replaced_le r old))
      · exact valid.untaken p kept r old
  | receive p =>
    have same : t.after (.receive p) = { t with outstanding := t.outstanding.erase p } :=
      System.ext session rfl replaced
    rw [same]
    exact lose_versioned t p valid
  | _ =>
    have same : t.after _ = t := System.ext session rfl replaced
    rw [same]
    exact valid

theorem reachable_versioned {settings : Settings} {realm : Option Realm} {t : System}
    (reached : Reachable settings realm t) : t.Versioned := by
  apply reachable_induction (start_versioned settings realm) ?_ reached
  intro t t' valid step
  cases step with
  | ask q outstanding =>
    cases rebuild : t.session.rebuild? q with
    | some r => exact rebuild_versioned t q r rebuild outstanding valid
    | none => exact idle_versioned t q rebuild valid
  | lose p => exact lose_versioned t p valid

def Current (limits : Limits) (t : System) : Prop :=
  match t.replaced with
  | [] => t.session.scope = none
  | r :: _ => ∃ shape, analysis? limits r.site = some shape ∧ t.session.scope = some shape

/-- A step records the rebuild that replaces the analysis, or leaves the analysis alone. -/
theorem step_cases {t t' : System} (step : Step t t') :
    t'.replaced = t.replaced ∧ t'.session.scope = t.session.scope ∨
    ∃ r shape, analysis? t.session.settings.limits r.site = some shape ∧
      t'.replaced = r :: t.replaced ∧ t'.session.scope = some shape ∧
      t'.session.version = r.version := by
  cases step with
  | lose p => exact Or.inl ⟨rfl, rfl⟩
  | ask q _ =>
    cases rebuild : t.session.rebuild? q with
    | none =>
      refine Or.inl ⟨replaced_after_idle t q rebuild, ?_⟩
      simp only [after,after_of_idle _ _ rebuild]
      split <;> rfl
    | some r =>
      rw [replaced_after t q r rebuild]
      simp only [after,after_of_rebuild _ _ _ rebuild,carryOut]
      cases parsed : analysis? t.session.settings.limits r.site with
      | none => exact Or.inl (by simp)
      | some shape => exact Or.inr ⟨r, shape, parsed, by simp⟩

theorem reachable_current {settings : Settings} {realm : Option Realm} {t : System}
    (reached : Reachable settings realm t) : t.Current settings.limits := by
  induction reached with
  | refl => rfl
  | tail before step current =>
    have same := (reachable_settings before).1
    rcases step_cases step with ⟨replaced, scope⟩ | ⟨r, shape, parsed, replaced, scope, _⟩
    · unfold Current
      rw [replaced,scope]
      exact current
    · unfold Current
      rw [replaced]
      exact ⟨shape, same ▸ parsed, scope⟩

/-- Once there is an analysis there always is one. -/
theorem scope_isSome_of_run {t t' : System} (run : Relation.ReflTransGen Step t t')
    (built : t.session.scope.isSome) : t'.session.scope.isSome := by
  induction run with
  | refl => exact built
  | tail _ step ih =>
    rcases step_cases step with ⟨_, scope⟩ | ⟨_, _, _, _, scope, _⟩
    · rwa [scope]
    · simp [scope]

/-- Taking back a parse that is out of date only removes it. -/
theorem after_receive_stale (t : System) (p : BackgroundParse)
    (stale : p.version ≠ t.session.version) :
    t.after (.receive p) = { t with outstanding := t.outstanding.erase p } := by
  have idle : t.session.rebuild? (.receive p) = none := by simp [rebuild?,stale]
  exact System.ext (after_of_idle t.session _ idle) rfl (replaced_after_idle t _ idle)

theorem version_after_receive (t : System) (p : BackgroundParse) :
    (t.after (.receive p)).session.version = t.session.version := by
  by_cases newest : p.version = t.session.version
  · simp [after,Session.after,receive_newest _ _ newest,carryOut,newest]
  · rw [after_receive_stale t p newest]

/-- Of two parses with different versions at least one is out of date, before and after
the other is taken back. -/
theorem receive_comm (t : System) (p q : BackgroundParse) (apart : p.version ≠ q.version) :
    (t.after (.receive p)).after (.receive q) = (t.after (.receive q)).after (.receive p) := by
  have swap (p q : BackgroundParse) (stale : q.version ≠ t.session.version) :
      (t.after (.receive p)).after (.receive q) = (t.after (.receive q)).after (.receive p) := by
    rw [after_receive_stale t q stale,
      after_receive_stale (t.after _) q (by rwa [version_after_receive])]
    exact System.ext rfl (List.erase_comm _ _) rfl
  by_cases stale : q.version = t.session.version
  · exact (swap q p fun newest => apart (newest.trans stale.symm)).symm
  · exact swap p q stale

def receiveAll (t : System) (parses : List BackgroundParse) : System :=
  parses.foldl (fun t p => t.after (.receive p)) t

theorem receiveAll_perm (t : System) (valid : t.Versioned) (l₁ l₂ : List BackgroundParse)
    (outstanding : ∀ p ∈ l₁, p ∈ t.outstanding) (perm : l₁.Perm l₂) :
    t.receiveAll l₁ = t.receiveAll l₂ := by
  refine perm.foldl_eq' (fun p hp q hq u => ?_) t
  by_cases same : p = q
  · rw [same]
  · have : Std.Symm fun p q : BackgroundParse => p.version ≠ q.version := ⟨fun _ _ => Ne.symm⟩
    exact receive_comm u p q
      (valid.distinct.forall (outstanding p hp) (outstanding q hq) same)

/-- The answer to a background parse, in every case. -/
theorem receive_result (s : Session) (p : BackgroundParse) :
    ((s.receive p).1 = .ok true ↔ p.version = s.version ∧
      ∃ program, parseAt p.site.source p.site.caret = .ok program) ∧
    (∀ e, (s.receive p).1 = .error e ↔ p.version = s.version ∧ s.scope = none ∧
      ∃ reason, parseAt p.site.source p.site.caret = .error reason ∧ e = .unparsable reason) := by
  by_cases newest : p.version = s.version
  · cases parsed : parseAt p.site.source p.site.caret with
    | ok program => simp [receive,newest,parsed]
    | error reason =>
      cases scope : s.scope <;> simp [receive,newest,parsed,scope,eq_comm]
  · simp [receive_stale s p newest,newest]

theorem receive_replaces (s : Session) (p : BackgroundParse) (program : Program)
    (newest : p.version = s.version)
    (parsed : parseAt p.site.source p.site.caret = .ok program) :
    (s.receive p).2.scope = some (visibleAt program.body p.site.caret s.settings.limits) := by
  simp [receive,newest,parsed,replace]

theorem receive_ignored (s : Session) (p : BackgroundParse)
    (refused : (s.receive p).1 ≠ .ok true) : (s.receive p).2.scope = s.scope := by
  by_cases newest : p.version = s.version
  · cases parsed : parseAt p.site.source p.site.caret with
    | ok program => exact absurd (by simp [receive,newest,parsed]) refused
    | error reason => simp [receive,newest,parsed]
  · rw [receive_stale s p newest]

structure Safe (limits : Limits) (t : System) : Prop where
  /-- An older request never overwrites the result of a newer one. -/
  increasing : t.replaced.Pairwise fun newer older => older.version < newer.version
  unbuilt : t.replaced = [] → t.session.scope = none
  /-- The analysis is that of the last rebuild that replaced it. -/
  built : ∀ r earlier, t.replaced = r :: earlier → ∃ program,
    parseAt r.site.source r.site.caret = .ok program ∧
    t.session.scope = some (visibleAt program.body r.site.caret limits)
  /-- A step that does not add a rebuild to the record leaves the analysis alone. -/
  recorded : ∀ t', Step t t' →
    t'.replaced = t.replaced ∧ t'.session.scope = t.session.scope ∨
    ∃ r, t'.replaced = r :: t.replaced ∧ t'.session.version = r.version
  kept : ∀ t', Relation.ReflTransGen Step t t' → t.session.scope ≠ none → t'.session.scope ≠ none
  /-- A background parse replaces the analysis, and says so, exactly when it is the newest
  request and its text can be parsed. -/
  accepted : ∀ p, ((t.session.receive p).1 = .ok true ↔ p.version = t.session.version ∧
    ∃ program, parseAt p.site.source p.site.caret = .ok program)
  replaces : ∀ p program, p.version = t.session.version →
    parseAt p.site.source p.site.caret = .ok program →
    (t.session.receive p).2.scope = some (visibleAt program.body p.site.caret limits)
  ignored : ∀ p, (t.session.receive p).1 ≠ .ok true →
    (t.session.receive p).2.scope = t.session.scope
  /-- It is an error only while there is nothing to fall back on. -/
  failed : ∀ p e, ((t.session.receive p).1 = .error e ↔ p.version = t.session.version ∧
    t.session.scope = none ∧ ∃ reason,
      parseAt p.site.source p.site.caret = .error reason ∧ e = .unparsable reason)
  /-- Outstanding parses may come back in any order. -/
  unordered : ∀ l₁ l₂ : List BackgroundParse, (∀ p ∈ l₁, p ∈ t.outstanding) → l₁.Perm l₂ →
    t.receiveAll l₁ = t.receiveAll l₂

/-- Background rebuilds are safe in every state of every run, under either policy. -/
theorem background_rebuilds_safe (settings : Settings) (realm : Option Realm) (t : System)
    (reached : Reachable settings realm t) : t.Safe settings.limits := by
  have valid := reachable_versioned reached
  have current := reachable_current reached
  have same := (reachable_settings reached).1
  constructor
  · exact valid.increasing
  · intro unbuilt
    rw [Current,unbuilt] at current
    exact current
  · intro r earlier replaced
    rw [Current,replaced] at current
    obtain ⟨shape, found, scope⟩ := current
    obtain ⟨program, parsed, rfl⟩ := analysis?_eq_some_iff.mp found
    exact ⟨program, parsed, scope⟩
  · intro t' step
    rcases step_cases step with kept | ⟨r, _, _, replaced, _, version⟩
    · exact Or.inl kept
    · exact Or.inr ⟨r, replaced, version⟩
  · intro t' run built
    rw [← Option.isSome_iff_ne_none] at built ⊢
    exact scope_isSome_of_run run built
  · exact fun p => (receive_result t.session p).1
  · exact fun p program newest parsed => same ▸ receive_replaces t.session p program newest parsed
  · exact fun p refused => receive_ignored t.session p refused
  · exact fun p => (receive_result t.session p).2
  · exact fun l₁ l₂ outstanding perm => receiveAll_perm t valid l₁ l₂ outstanding perm

/-- Two parses replace the analysis, each of them requested after another one. The first of those
comes back too late, the second one is still in flight. -/
def overtaken : System :=
  [.request ⟨"a", ⟨0, 1⟩⟩, .request ⟨"b", ⟨0, 1⟩⟩, .receive ⟨⟨"a", ⟨0, 1⟩⟩, 1⟩,
    .receive ⟨⟨"b", ⟨0, 1⟩⟩, 2⟩, .request ⟨"c", ⟨0, 1⟩⟩, .request ⟨"d", ⟨0, 1⟩⟩,
    .receive ⟨⟨"d", ⟨0, 1⟩⟩, 4⟩].foldl after (start {} none)

theorem overtaken_reachable : Reachable {} none overtaken := by
  have ask {t : System} (reached : Reachable {} none t) (q : Request)
      (outstanding : ∀ p, q = .receive p → t.outstanding.elem p = true) :
      Reachable {} none (t.after q) :=
    reached.tail (.ask _ q fun p same => List.elem_iff.mp (outstanding p same))
  refine ask (ask (ask (ask (ask (ask (ask .refl _ ?_) _ ?_) _ ?_) _ ?_) _ ?_) _ ?_) _ ?_
  all_goals rintro _ ⟨⟩ <;> decide +kernel

theorem background_rebuilds_safe_overtaken : overtaken.replaced.map (·.version) = [4, 2] ∧
    overtaken.outstanding.map (·.version) = [3] ∧ overtaken.Safe {} :=
  ⟨by decide +kernel, by decide +kernel, background_rebuilds_safe {} none overtaken overtaken_reachable⟩

end CodeCompletion.Session.System
