import CodeCompletion.Proofs.Parser.Grammar

/-! Functions and classes are tidy: parameters, bodies, methods and members. -/
namespace CodeCompletion.Parser

open TreeNode

/-- Every kind of member that has a function has it as its only part. -/
theorem ofMemberKind_memberKind (key : PropertyKey) (isStatic : Bool) (which : Option Accessor)
    (f : Function) : ofMemberKind (memberKind key isStatic which f) = [.function f] := by
  unfold memberKind
  split
  · rfl
  · rfl
  · split
    · split <;> rfl
    · split <;> rfl
    · rfl

variable {ls : List Lexeme} {i : Nat} {g : Grammar} (stream : Stream ls)
include stream

theorem reaches_optionalName {isDeclaration : Bool} {missing : SyntaxError.Reason} :
    Reaches ls i (optionalName isDeclaration missing) fun _ found =>
      ∀ name ∈ found, Occurs ls (.word name.name) := by
  refine .look reaches_peek fun token _ => ?_
  split
  · refine .ite (fun _ => ?_) fun _ => .ite (fun _ => .fail) fun _ => .pure (by simp)
    exact .take (reaches_ident stream) fun name ⟨_, word⟩ => .pure (by simpa using word)
  · exact .ite (fun _ => .fail) fun _ => .pure (by simp)

theorem reaches_modifies {word : String} : Reaches ls i (modifies word) fun j found =>
    j = i ∧ (found = true → tokenAt ls i = some (.word word)) := by
  refine .look reaches_peek fun token here => .ite (fun same => ?_) fun _ => .pure ⟨rfl, nofun⟩
  subst same
  refine .look (reaches_peekNext stream) fun next _ => ?_
  split <;> exact .pure ⟨rfl, fun _ => here⟩

theorem reaches_accessor : Reaches ls i accessor fun _ _ => True := by
  refine .look (reaches_modifies stream) fun found here => .ite (fun isGetter => ?_) fun _ => ?_
  · exact .take (reaches_advance stream (here isGetter) (by simp)) fun _ _ => .pure trivial
  refine .look (reaches_modifies stream) fun found here => .ite (fun isSetter => ?_) fun _ => ?_
  · exact .take (reaches_advance stream (here isSetter) (by simp)) fun _ _ => .pure trivial
  · exact .pure trivial

namespace Grammar.Sound

variable (sound : g.Sound ls)
include sound

theorem param : Reaches ls i g.param fun j r =>
    Row ls i j (exprs? r.1.fallback) ∧ Occurs ls (.word r.1.name.name) := by
  refine (reaches_accept stream (by simp)).bind fun j isRest _ _ => ?_
  refine .take (reaches_ident stream) fun name ⟨_, word⟩ => ?_
  refine .ite_bind (P := fun _ _ => True) (.ite (fun _ => .pure trivial) fun _ => ?_) ?_
  · exact (reaches_accept stream (by simp)).mono fun _ _ _ _ => trivial
  intro k hasDefault _ _
  refine .ite_bind (sound.assignment.optional _) fun m fallback _ row => .pure ⟨?_, word⟩
  exact row.startEarlier (by omega)

theorem params : Reaches ls i g.params fun j ps => i < j ∧ Row ls i j (ofParams ps) ∧
    ∀ p ∈ ps, Occurs ls (.word p.name.name) := by
  refine .take (reaches_require stream (by simp)) fun _ _ => .withIn ?_
  refine (reaches_commaList (P := fun p => Occurs ls (.word p.name.name)) stream
    (fun p => exprs? p.fallback) (by simp) fun _ => sound.param stream).mono
      fun j ps le ⟨row, words⟩ => ?_
  exact ⟨le, row.startEarlier (Nat.le_succ i), words⟩

theorem functionBlock : Parses ls g.functionBlock .block := (sound.block stream).withIn

/-- What follows the name or key of a function, which starts at `start`. -/
theorem functionRest {start : Span} {name : Option Ident} {a b : Nat} (starts : Spans ls a b start)
    (le : b ≤ i) (named : ∀ given ∈ name, Occurs ls (.word given.name)) : Reaches ls i (do
      let params ← g.params
      let body ← g.functionBlock
      return (⟨name, params, .block body, false, ← finish start⟩ : Function)) fun j f =>
        Spans ls a j f.span ∧ Found ls a j (.function f) := by
  have := starts.nonempty
  refine (sound.params stream).bind fun k params _ ⟨_, row, words⟩ => ?_
  refine (sound.functionBlock stream k).bind fun m body _ found => ?_
  refine .look (reaches_finish stream starts (by omega)) fun span spans => .pure ⟨spans, ?_⟩
  have children := (row.append (.single found)).startEarlier (k := a) (by omega)
  exact .of_row stream spans children ⟨named, words⟩

theorem function (isDeclaration : Bool) : Parses ls (g.function isDeclaration) .function :=
  fun i => by
  refine .take (reaches_requireWord stream) fun start starts => ?_
  refine (reaches_accept stream (by simp)).bind fun j _ _ _ => ?_
  refine (reaches_optionalName stream).bind fun k name _ named => ?_
  exact (sound.functionRest stream starts (by omega) named).mono fun _ _ _ post => post.2

theorem method {start : Span} {a b : Nat} (starts : Spans ls a b start) (le : b ≤ i) :
    Reaches ls i (g.method start) fun j f => Spans ls a j f.span ∧ Found ls a j (.function f) :=
  sound.functionRest stream starts le (by simp)

theorem arrow : Parses ls g.arrow .expr := fun i => by
  refine .look reaches_currentSpan fun start starts => .look reaches_peek fun token _ => ?_
  -- Both forms of parameters go on in the same way.
  have rest : ∀ j ps, i < j → Row ls i j (ofParams ps) →
      (∀ p ∈ ps, Occurs ls (.word p.name.name)) → Reaches ls j (do
      if ← newlineBefore then fail .newlineBeforeArrow
      let _ ← require .arrow
      let body ←
        if (← peek) = .leftBrace then FunctionBody.block <$> g.functionBlock
        else FunctionBody.expr <$> g.assignment
      let span ← finish start
      return Expr.function span ⟨none, ps, body, true, span⟩) fun k e => Found ls i k (.expr e) := by
    intro j ps lt row words
    refine .look reaches_newlineBefore fun newline _ => .ite (fun _ => .fail_bind) fun _ => ?_
    refine .take (reaches_require stream (by simp)) fun _ _ => .look reaches_peek fun token _ => ?_
    refine .ite_bind (P := fun k body => Row ls (j + 1) k (ofFunctionBody body)) ?_ ?_
    · refine .ite (fun _ => .map ?_) fun _ => .map ?_
      · exact (sound.functionBlock stream (j + 1)).mono fun _ _ _ found => .single found
      · exact (sound.assignment (j + 1)).mono fun _ _ _ found => .single found
    intro k body _ row'
    refine .look (reaches_finish stream starts (by omega)) fun span spans => .pure ?_
    have found : Found ls i k (.function ⟨none, ps, body, true, span⟩) :=
      .of_row stream spans (row.append (row'.startEarlier (Nat.le_succ j))) ⟨by simp, words⟩
    exact .of_row stream spans (.single found) trivial
  refine .ite (fun _ => ?_) fun _ => ?_
  · exact (sound.params stream).bind fun j ps _ ⟨lt, row, words⟩ => rest j ps lt row words
  · exact .take (reaches_ident stream) fun name ⟨_, word⟩ =>
      rest _ [⟨name, none, false⟩] (Nat.lt_succ_self i) (.nil (Nat.le_succ i)) (by simpa using word)

theorem propertyKey : Reaches ls i g.propertyKey fun j key =>
    i < j ∧ Row ls i j (ofKey key) ∧ GenuineKey ls key := by
  refine .look reaches_peek fun token here => ?_
  have taken : ∀ key, ofKey key = [] → GenuineKey ls key → token ≠ .endOfInput →
      Reaches ls i (do let _ ← advance; return key) fun j key =>
        i < j ∧ Row ls i j (ofKey key) ∧ GenuineKey ls key := by
    intro key plain genuine notEnd
    refine .take (reaches_advance stream here notEnd) fun _ _ => .pure ⟨Nat.lt_succ_self i, ?_, genuine⟩
    rw [plain]
    exact .nil (Nat.le_succ i)
  split
  · exact taken _ rfl (occurs_of_tokenAt here) (by simp)
  · exact taken _ rfl (occurs_of_tokenAt here) (by simp)
  · exact taken _ rfl trivial (by simp)
  · refine .map ((sound.computed stream i).mono fun _ _ _ found => ?_)
    exact ⟨found.lt, .single found, trivial⟩
  · exact .fail

theorem classMember : Parses ls g.classMember .member := fun i => by
  refine .look reaches_currentSpan fun start starts => ?_
  refine .look (reaches_modifies stream) fun isStatic here => ?_
  refine .when (fun h => reaches_advance stream (here h) (by simp)) fun _ _ => ?_
  refine (reaches_accessor stream).bind fun j which _ _ => ?_
  refine (reaches_accept stream (by simp)).bind fun k isGenerator _ _ => ?_
  refine (sound.propertyKey stream).bind fun l key _ ⟨_, row, genuine⟩ => ?_
  refine .look reaches_peek fun token _ => ?_
  -- The function of a method starts at `start` too, so the parts of a member are no row.
  have rest : ∀ m kind, l ≤ m → (∀ c ∈ ofMemberKind kind, Found ls i m c) →
      Reaches ls m (do return (⟨key, isStatic, kind, ← finish start⟩ : ClassMember)) fun m' e =>
        Found ls i m' (.member e) := by
    intro m kind le parts
    refine .look (reaches_finish stream starts (by omega)) fun span spans => .pure ?_
    refine .of_parts rfl spans (fun c member => ?_) genuine
    rcases List.mem_append.mp member with member | member
    · exact (row.found c member).widen (by omega) le
    · exact parts c member
  refine .ite (fun _ => .bind ?_ rest) fun _ => .ite (fun _ => ?_) fun _ => ?_
  · refine .map (.withIn ((sound.method stream starts (by omega)).mono fun m f _ post => ?_))
    simpa [ofMemberKind_memberKind] using post.2
  · exact .look reaches_peek fun _ _ => .fail_bind
  · refine (reaches_accept stream (by simp)).bind fun _ _ _ _ => ?_
    refine .ite_bind (sound.assignment.withIn.optional _) fun _ init _ row' => ?_
    refine (reaches_semicolon stream).bind fun m _ _ _ => ?_
    refine rest m (.field init) (by omega) fun c member => ?_
    exact (row'.found c member).widen (by omega) (by omega)

theorem classBody : Reaches ls i g.classBody fun j members => Row ls i j (members.map member) := by
  refine .loop (I := fun k found => Row ls i k (found.reverse.map member))
    (fun k found _ row => ?_) g.limit [] (.nil (Nat.le_refl i))
  refine (reaches_accept stream (by simp)).bind fun j _ le _ => .ite (fun _ => ?_) fun _ => ?_
  · exact .pure (row.stopLater le)
  have row := row.stopLater le
  refine (reaches_accept stream (by simp)).bind fun k _ le _ => .ite (fun _ => ?_) fun _ => ?_
  · exact .pure (row.stopLater le)
  have row := row.stopLater le
  refine .look reaches_peek fun token _ => .ite (fun _ => .fail_bind) fun _ => ?_
  refine (sound.classMember stream k).bind fun m entry _ found' => .pure ?_
  simpa using row.append (.single found')

theorem classDef (isDeclaration : Bool) : Parses ls (g.class isDeclaration) .classDef := fun i => by
  refine .take (reaches_requireWord stream) fun start starts => ?_
  refine (reaches_optionalName stream).bind fun _ name _ named => ?_
  refine (reaches_accept stream (by simp)).bind fun j _ _ _ => ?_
  refine .ite_bind (sound.chain.optional _) fun k parent _ row => ?_
  refine .take (reaches_require stream (by simp)) fun bodyStart opens => ?_
  refine (sound.classBody stream).bind fun m members _ row' => ?_
  refine .look (reaches_finish stream opens (by omega)) fun bodySpan braces => ?_
  refine .look (reaches_finish stream starts (by omega)) fun span spans => .pure ?_
  have row' := row'.startEarlier (Nat.le_succ k)
  have inside : ∀ entry ∈ members, Within ls k m entry.span := fun entry listed =>
    (row'.found _ (List.mem_map_of_mem listed)).within
  have children := (row.append row').startEarlier (k := i) (by omega)
  exact .of_row stream spans children ⟨named, k, m, braces, inside⟩

end Grammar.Sound

end CodeCompletion.Parser
