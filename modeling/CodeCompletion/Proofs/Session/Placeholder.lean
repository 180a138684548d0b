import CodeCompletion.Proofs.Analysis.Names
import CodeCompletion.Proofs.Candidate.Origin
import CodeCompletion.Proofs.Caret.Intent
import CodeCompletion.Proofs.Session.Background
import CodeCompletion.Proofs.Session.History
import CodeCompletion.Proofs.Token.Name
import Mathlib.Data.List.Infix

/-! What becomes of the placeholder. A text that is parsed with the placeholder at the caret gets a
word that begins with it, and the word runs on if name characters stand right after the caret. The
placeholder alone is never offered; `complete_placeholder` says in which other names it can show. -/
namespace CodeCompletion

def Mentions (text : String) : Prop := placeholder.toList <:+: text.toList

instance (text : String) : Decidable (Mentions text) :=
  inferInstanceAs (Decidable (_ <:+: _))

theorem placeholder_starts : ∀ c ∈ placeholder.toList, isNameStart c = true :=
  List.all_eq_true.mp (by decide)

theorem underscore_mem {name : String} (mentions : Mentions name) : '_' ∈ name.toList :=
  mentions.subset (by decide)

section Splice

variable {inserted before after chars before' after' : List Char}

/-- A slice of a text with something inserted that has the inserted text in it, although the text
itself does not, and that stops short of what stands before the insertion, starts with what is
inserted. -/
theorem slice_of_spliced {d : Char}
    (whole : before ++ (inserted ++ after) = before' ++ (chars ++ after'))
    (holds : inserted <:+: chars) (absent : ¬ inserted <:+: before ++ after)
    (last : before.getLast? = some d) (apart : d ∉ chars) :
    ∃ head tail, inserted = head ++ tail ∧ tail ≠ [] ∧ before' = before ++ head ∧
      tail ++ after = chars ++ after' := by
  have inBefore : ¬ chars <:+: before := fun inside =>
    absent (holds.trans (inside.trans (List.prefix_append _ _).isInfix))
  have inAfter : ¬ chars <:+: after := fun inside =>
    absent (holds.trans (inside.trans (List.suffix_append _ _).isInfix))
  -- The slice starts behind the place of the insertion or before it; in the latter case it would
  -- have to take in `d`.
  rcases List.append_eq_append_iff.mp whole with ⟨head, rfl, rest⟩ | ⟨rest, rfl, slice⟩
  · rcases List.append_eq_append_iff.mp rest with ⟨more, rfl, rfl⟩ | ⟨tail, rfl, cut⟩
    · exact absurd ⟨more, after', by simp⟩ inAfter
    · refine ⟨head, tail, rfl, ?_, rfl, cut.symm⟩
      rintro rfl
      exact inAfter ⟨[], after', cut⟩
  · rcases List.append_eq_append_iff.mp slice with ⟨more, rfl, -⟩ | ⟨more, rfl, -⟩
    · exact absurd ⟨before', more, by simp⟩ inBefore
    · cases rest with
      | nil =>
        refine ⟨[], inserted, rfl, ?_, by simp, by simpa using slice.symm⟩
        rintro rfl
        exact absent (List.nil_infix)
      | cons c rest =>
        rw [List.getLast?_append_of_ne_nil _ (by simp)] at last
        exact absurd (List.mem_append_left more (List.mem_of_getLast? last)) apart

end Splice

section Names

theorem underscore_not_mem_positional {digits : List Char} (clean : '_' ∉ digits) (exponent : Int) :
    '_' ∉ (NumberLayout.plain.positional digits exponent).toList := by
  cases exponent with
  | ofNat k => simp [NumberLayout.positional,NumberLayout.plain,clean]
  | negSucc k =>
    have padded (n : Nat) : '_' ∉ List.replicate n '0' ++ digits := by simp [clean]
    simp only [NumberLayout.positional,String.toList_append,String.toList_ofList,List.mem_append,
      not_or]
    refine ⟨⟨fun member => ?_, by decide⟩, fun member => ?_⟩
    · exact padded _ (List.mem_of_mem_take member)
    · exact padded _ (List.mem_of_mem_drop member)

theorem underscore_not_mem_digits (n : Nat) : '_' ∉ Nat.toDigits 10 n := fun member =>
  absurd (Nat.isDigit_of_mem_toDigits (by decide) (by decide) member) (by decide)

/-- A number that stands for a key has no underscore in it. -/
theorem underscore_not_mem_key (x : Binary64) : '_' ∉ x.key.toList := by
  have written : '_' ∉ (NumberLayout.plain.write x).toList := by
    rw [NumberLayout.write]
    split
    · simp only [NumberLayout.plain,Bool.and_false,Bool.false_eq_true,if_false]
      exact underscore_not_mem_positional (underscore_not_mem_digits _) _
    · decide
  rw [Binary64.key]
  split
  · split
    · simp
    · exact written
  · exact written

/-- A name that stands in a text as it is: as a word, or between quotes. -/
inductive Verbatim (name : String) (before chars after : List Char) : Prop where
  | word (spelled : WordSpelling name chars after) (parted : Parted before (chars ++ after))
  | quoted {quote : Char} (quotes : quote = '"' ∨ quote = '\'')
      (same : chars = quote :: (name.toList ++ [quote]))

/-- A string literal of the text has this value, and it is written with a backslash. -/
def EscapedIn (text value : String) : Prop :=
  ∃ ls, lexText text = .ok ls ∧ ∃ l ∈ ls, l.token = .str value ∧
    ∃ before chars after, text.toList = before ++ (chars ++ after) ∧ l.Placed before chars after ∧
      '\\' ∈ chars

variable {name text : String} {before chars after : List Char} {ls : List Lexeme}

theorem Verbatim.holds (verbatim : Verbatim name before chars after) :
    name.toList <:+: chars := by
  cases verbatim with
  | word spelled _ => exact spelled.same ▸ List.infix_refl _
  | @quoted quote _ same => exact same ▸ ⟨[quote], [quote], by simp⟩

/-- There is no dot in a name, nor in the quotes around it. -/
theorem Verbatim.not_mem (verbatim : Verbatim name before chars after) (named : isName name = true)
    {d : Char} (link : d = '.' ∨ d = '?') : d ∉ chars := by
  have other : isNameContinue d = false := by rcases link with rfl | rfl <;> decide
  have absent : d ∉ name.toList := fun member => by
    simp [isNameContinue_of_isName named d member] at other
  cases verbatim with
  | word spelled _ => exact spelled.same ▸ absent
  | quoted quotes same =>
    have apart : ∀ quote, quote = '"' ∨ quote = '\'' → d ≠ quote := by
      rcases link with rfl | rfl <;> rintro _ (rfl | rfl) <;> decide
    simp [same,absent,apart _ quotes]

/-- A name with the placeholder in it stands in the text as it is or is escaped. -/
theorem verbatim_or_escaped (lexed : lexText text = .ok ls) (written : Written ls name)
    (mentions : Mentions name) : EscapedIn text name ∨ ∃ before chars after,
      text.toList = before ++ (chars ++ after) ∧ Verbatim name before chars after := by
  cases written with
  | word occurs =>
    obtain ⟨l, member, token⟩ := occurs
    obtain ⟨before, chars, after, whole, placed⟩ :=
      placed_of_lexChars lexed member (by simp [token])
    exact Or.inr ⟨before, chars, after, whole, .word (token ▸ placed.spelling).of_word placed.parted⟩
  | string occurs =>
    obtain ⟨l, member, token⟩ := occurs
    obtain ⟨before, chars, after, whole, placed⟩ :=
      placed_of_lexChars lexed member (by simp [token])
    obtain ⟨quote, body, quotes, same, value⟩ := (token ▸ placed.spelling).of_str
    rcases value with escaped | plain
    · refine Or.inl ⟨ls, lexed, l, member, token, before, chars, after, whole, placed, ?_⟩
      simp [same,escaped]
    · exact Or.inr ⟨before, chars, after, whole, .quoted quotes (plain ▸ same)⟩
  | number x same => exact absurd (underscore_mem mentions) (same ▸ underscore_not_mem_key x)
  | implied member =>
    have clean : ∀ name ∈ impliedNames, '_' ∉ name.toList := by decide
    exact absurd (underscore_mem mentions) (clean name member)

/-- In a text without the placeholder only an escape can spell it. -/
theorem escaped_of_clean (lexed : lexText text = .ok ls) (written : Written ls name)
    (clean : ¬ Mentions text) (mentions : Mentions name) : EscapedIn text name := by
  rcases verbatim_or_escaped lexed written mentions with
    escaped | ⟨before, chars, after, whole, verbatim⟩
  · exact escaped
  · have inside : chars <:+: text.toList := ⟨before, after, by simp [whole]⟩
    exact absurd (mentions.trans (verbatim.holds.trans inside)) clean

/-- In a text with the placeholder inserted right after a dot, a word that begins with it is the
only other way. -/
theorem glued_or_escaped {d : Char} (lexed : lexText text = .ok ls) (written : Written ls name)
    (whole : text.toList = before ++ (placeholder.toList ++ after))
    (clean : ¬ placeholder.toList <:+: before ++ after) (last : before.getLast? = some d)
    (link : d = '.' ∨ d = '?') (named : isName name = true) (mentions : Mentions name) :
    EscapedIn text name ∨ name.toList = placeholder.toList ++ after.takeWhile isNameContinue := by
  rcases verbatim_or_escaped lexed written mentions with
    escaped | ⟨before', chars, after', slice, verbatim⟩
  · exact Or.inl escaped
  obtain ⟨head, tail, inserted, nonempty, rfl, rest⟩ :=
    slice_of_spliced (whole ▸ slice) (mentions.trans verbatim.holds) clean last
      (verbatim.not_mem named link)
  obtain ⟨c, tail, rfl⟩ := List.exists_cons_of_ne_nil nonempty
  have starts : isNameStart c = true := placeholder_starts c (by simp [inserted])
  cases verbatim with
  | quoted quotes same =>
    -- The slice begins within the placeholder, where there are no quotes.
    rw [same] at rest
    obtain ⟨rfl, -⟩ := List.cons.inj rest
    exact absurd starts (by rcases quotes with rfl | rfl <;> decide)
  | word spelled parted =>
    have boundary : head = [] := by
      -- A word does not start in the middle of a run of name characters.
      by_contra inside
      have final : (before ++ head).getLast? = some (head.getLast inside) := by
        rw [List.getLast?_append_of_ne_nil _ inside,List.getLast?_eq_some_getLast]
      have within := placeholder_starts (head.getLast inside) (by simp [inserted])
      have stops := parted _ final (isNameContinue_of_isNameStart within)
      rw [← rest] at stops
      simp [starts] at stops
    rw [boundary,List.nil_append] at inserted
    have ends : after'.takeWhile isNameContinue = [] := by
      have ends := spelled.ends
      cases after' with
      | nil => rfl
      | cons d more => exact List.takeWhile_cons_of_neg (by simpa using ends)
    refine Or.inr ?_
    calc name.toList
      _ = chars ++ after'.takeWhile isNameContinue := by rw [ends,List.append_nil,spelled.same]
      _ = (chars ++ after').takeWhile isNameContinue :=
        (List.takeWhile_append_of_pos spelled.continues).symm
      _ = (placeholder.toList ++ after).takeWhile isNameContinue := by rw [← rest,inserted]
      _ = placeholder.toList ++ after.takeWhile isNameContinue :=
        List.takeWhile_append_of_pos fun c member =>
          isNameContinue_of_isNameStart (placeholder_starts c member)

end Names

section Repair

variable {site : Site} {source : String} {caret : Position} {before after : List Char}

/-- Where a property is to be completed that has not been begun, a dot stands before the caret,
or the question mark that one belongs to. -/
theorem link_before_caret {intent : Intent} (found : contextAt source caret = some intent)
    (property : intent.kind = .property) (whole : source.toList = before ++ after)
    (place : caretOffset? source caret = some (byteLength before)) :
    ∃ d, before.getLast? = some d ∧ (d = '.' ∨ d = '?') := by
  obtain ⟨front, rest, left, right, ls, sliced, among⟩ := contextAt_eq_some found
  obtain ⟨index, stands⟩ := stands_of_intentAmong among
  have untyped : intent.typed = "" := by simp [Intent.typed,property]
  have size : byteLength front = byteLength before :=
    Option.some.inj (sliced.caret_offset.symm.trans place)
  obtain ⟨rfl, rfl⟩ := append_cancel (sliced.whole.symm.trans whole) size
  rcases sliced.dot_before (untyped ▸ stands.typed) with dot | ⟨question, -⟩
  · exact ⟨'.', dot, Or.inl rfl⟩
  · exact ⟨'?', question, Or.inr rfl⟩

/-- The text of a site cannot be parsed, but with the placeholder at its caret, where a property
is to be completed, it can. -/
structure Repaired (site : Site) (before after : List Char) (program : Program) : Prop where
  whole : site.source.toList = before ++ after
  caret : caretOffset? site.source site.caret = some (byteLength before)
  broken : ∃ e, parseText site.source = .error e
  property : ∃ intent, contextAt site.source site.caret = some intent ∧ intent.kind = .property
  parsed : parseText (String.ofList (before ++ placeholder.toList ++ after)) = .ok program

theorem parseAt_cases {program : Program} (h : parseAt site.source site.caret = .ok program) :
    parseText site.source = .ok program ∨ ∃ before after, Repaired site before after program := by
  simp only [parseAt,parseEdited] at h
  split at h
  next parsed => exact Or.inl (parsed.trans h)
  next e broken =>
    split at h
    next wanted =>
      split at h
      next tried =>
        cases h
        obtain ⟨text, inserted, parsed⟩ := Option.map_eq_some_iff.mp tried
        obtain ⟨offset, place, cut⟩ := Option.bind_eq_some_iff.mp inserted
        obtain ⟨⟨before, after⟩, split, joined⟩ := Option.bind_eq_some_iff.mp cut
        obtain ⟨whole, rfl⟩ := splitAtByte_eq_some split
        cases joined
        obtain ⟨intent, found, property⟩ := (Option.any_eq_true _ _).mp wanted
        exact Or.inr ⟨before, after, whole, place, ⟨e, broken⟩,
          ⟨intent, found, by simpa using property⟩, parsed⟩
      next => cases h
    next => cases h

theorem Repaired.link {program : Program} (repaired : Repaired site before after program) :
    ∃ d, before.getLast? = some d ∧ (d = '.' ∨ d = '?') := by
  obtain ⟨intent, found, property⟩ := repaired.property
  exact link_before_caret found property repaired.whole repaired.caret

/-- How the placeholder shows in a name that is known from a site whose text does not have it. Name
characters right after the caret may run on from it, or a string may spell it with an escape. -/
inductive Shows (site : Site) (name : String) : Prop where
  | glued {before after : List Char} {program : Program}
      (repaired : Repaired site before after program)
      (follows : after.head?.any isNameContinue = true)
      (same : name.toList = placeholder.toList ++ after.takeWhile isNameContinue)
  | escaped (inText : EscapedIn site.source name)
  | escapedBeside {before after : List Char} {program : Program}
      (repaired : Repaired site before after program)
      (inText : EscapedIn (String.ofList (before ++ placeholder.toList ++ after)) name)

theorem eligible_ne_placeholder {typed name : String}
    (eligible : Surroundings.isEligible typed name = true) :
    name ≠ placeholder ∧ isName name = true := by
  simp only [Surroundings.isEligible,Bool.and_eq_true,bne_iff_ne] at eligible
  exact ⟨eligible.1.2, eligible.2⟩

/-- The names of an analysis are written in the text that was parsed, and those among them that may
be offered have the placeholder in them only where it shows. -/
theorem shows_of_analysis {limits : Limits} {shape : Shape}
    (built : Session.analysis? limits site = some shape) (clean : ¬ Mentions site.source) :
    ∃ ls, shape.NamedBy (Written ls) ∧ ∀ name, Written ls name → name ≠ placeholder →
      isName name = true → Mentions name → Shows site name := by
  obtain ⟨program, parsed, rfl⟩ := Session.analysis?_eq_some_iff.mp built
  rcases parseAt_cases parsed with plain | ⟨before, after, repaired⟩
  · obtain ⟨ls, lexed, named⟩ := visibleAt_written plain
    refine ⟨ls, named _ _, fun name written _ _ mentions => ?_⟩
    exact .escaped (escaped_of_clean lexed written clean mentions)
  · obtain ⟨ls, lexed, named⟩ := visibleAt_written repaired.parsed
    refine ⟨ls, named _ _, fun name written other isName mentions => ?_⟩
    obtain ⟨d, last, link⟩ := repaired.link
    have whole : (String.ofList (before ++ placeholder.toList ++ after)).toList =
        before ++ (placeholder.toList ++ after) := by simp
    rw [Mentions,repaired.whole] at clean
    rcases glued_or_escaped lexed written whole clean last link isName mentions with escaped | same
    · exact .escapedBeside repaired escaped
    · refine .glued repaired ?_ same
      -- Without name characters after the caret the name would be the placeholder alone.
      by_contra none
      refine other (String.toList_inj.mp ?_)
      rw [same]
      cases after with
      | nil => simp
      | cons c rest => rw [List.takeWhile_cons_of_neg (by simpa using none),List.append_nil]

end Repair

open Session System

/-- An answer is given from what the session knows once it has been asked. -/
theorem mem_displays_complete {s : Session} {site : Site} {name : String}
    (offered : name ∈ (s.complete site).1.displays) :
    ∃ intent, name ∈ ((s.complete site).2.answer intent).displays := by
  unfold complete at offered ⊢
  split at offered
  next => cases offered
  next intent _ => exact ⟨intent, offered⟩

theorem keywords_clean : ∀ word ∈ keywords, '_' ∉ word.toList := by decide

/-- Neither live objects nor keywords bring in the placeholder. -/
theorem written_of_answer {s : Session} {intent : Intent} {name : String} {Q : String → Prop}
    (named : ∀ root ∈ s.scope, root.NamedBy Q)
    (objects : ∀ r ∈ s.realm, ∀ name, r.Has name → ¬ Mentions name)
    (offered : name ∈ (s.answer intent).displays) (mentions : Mentions name) :
    Q name ∧ name ≠ placeholder ∧ isName name = true := by
  cases offered_of_ranked named offered with
  | known written eligible => exact ⟨written, eligible_ne_placeholder eligible⟩
  | @live r given has =>
    split at given
    · exact absurd mentions (objects r given name has)
    · cases given
  | keyword member => exact absurd (underscore_mem mentions) (keywords_clean name member)

/-- In no run of a session is the placeholder offered as a name, nor a name with the placeholder
in it, unless it shows in the text that was analysed last. Neither the texts that were analysed
nor the live objects have the placeholder in them. -/
theorem complete_placeholder (settings : Settings) (realm : Option Realm) (t : System) (site : Site)
    (reached : Reachable settings realm t)
    (sources : ∀ r ∈ (t.after (.complete site)).replaced, ¬ Mentions r.site.source)
    (objects : ∀ r ∈ realm, ∀ name, r.Has name → ¬ Mentions name) :
    ∀ name ∈ (t.session.complete site).1.displays, Mentions name →
      name ≠ placeholder ∧
      ∃ r, (t.after (.complete site)).replaced.head? = some r ∧ Shows r.site name := by
  intro name offered mentions
  have reached : Reachable settings realm (t.after (.complete site)) :=
    reached.tail (.ask t (.complete site) nofun)
  have objects := (reachable_settings reached).2.symm ▸ objects
  have current := reachable_current reached
  obtain ⟨intent, offered⟩ := mem_displays_complete offered
  unfold Current at current
  split at current
  next =>
    have blank : ∀ root ∈ (t.after (.complete site)).session.scope,
        root.NamedBy fun _ => False := by simp [current]
    exact (written_of_answer blank objects offered mentions).1.elim
  next r _ replaced =>
    obtain ⟨shape, built, scope⟩ := current
    obtain ⟨ls, named, shows⟩ := shows_of_analysis built (sources r (by simp [replaced]))
    have known : ∀ root ∈ (t.after (.complete site)).session.scope,
        root.NamedBy (Written ls) := by simpa [scope] using named
    obtain ⟨written, other, isName⟩ := written_of_answer known objects offered mentions
    exact ⟨other, r, by simp [replaced], shows name written other isName mentions⟩

section Operator

/-- A caret after a dot and right before a word that is an operator elsewhere, so that a slash
after it starts a regular expression. -/
def beforeOperator : Site := ⟨"new a.in/b/c", ⟨0, 6⟩⟩

theorem beforeOperator_displays :
    ((System.start {} none).session.complete beforeOperator).1.displays =
      ["__augur_caret__in"] := by
  have context : contextAt beforeOperator.source beforeOperator.caret =
      some ⟨.property, ["a"]⟩ := by decide +kernel
  obtain ⟨program, parsed, offers⟩ : ∃ program,
      parseAt beforeOperator.source beforeOperator.caret = .ok program ∧
      (ranked ⟨.property, ["a"]⟩ (some (visibleAt program.body beforeOperator.caret {})) none true
        {}).displays = ["__augur_caret__in"] := exists_ok_of_any (by decide +kernel)
  have built : analysis? {} beforeOperator =
      some (visibleAt program.body beforeOperator.caret {}) :=
    analysis?_eq_some_iff.mpr ⟨program, parsed, rfl⟩
  have answered := complete_upToDate (System.start {} none).session beforeOperator _ _
    (start_upToDate {} none) rfl context built
  rw [answered]
  exact offers

/-- A new session has analysed nothing but what it is asked about first. -/
theorem site_of_first {settings : Settings} {realm : Option Realm} {site : Site} {r : Rebuild}
    (member : r ∈ ((System.start settings realm).after (.complete site)).replaced) :
    r.site = site := by
  cases rebuild : (System.start settings realm).session.rebuild? (.complete site) with
  | none =>
    rw [replaced_after_idle _ _ rebuild] at member
    cases member
  | some first =>
    have same : first.site = site := by
      simp only [rebuild?,rebuildAt?] at rebuild
      split at rebuild <;> cases rebuild
      rfl
    rcases mem_replaced_after rebuild member with rfl | earlier
    · exact same
    · cases earlier

theorem complete_placeholder_operator :
    (∀ r ∈ ((System.start {} none).after (.complete beforeOperator)).replaced,
      ¬ Mentions r.site.source) ∧
    "__augur_caret__in" ∈
      ((System.start {} none).session.complete beforeOperator).1.displays ∧
    "__augur_caret__in" ≠ placeholder ∧
    ∃ r, ((System.start {} none).after (.complete beforeOperator)).replaced.head? = some r ∧
      Shows r.site "__augur_caret__in" := by
  have sources : ∀ r ∈ ((System.start {} none).after (.complete beforeOperator)).replaced,
      ¬ Mentions r.site.source := by
    intro r member
    rw [site_of_first member]
    decide
  have offered : "__augur_caret__in" ∈
      ((System.start {} none).session.complete beforeOperator).1.displays := by
    simp [beforeOperator_displays]
  exact ⟨sources, offered, complete_placeholder {} none (.start {} none) beforeOperator .refl sources
    nofun "__augur_caret__in" offered (by decide)⟩

/-- The filter for the placeholder does not see it when a word goes on after the caret. -/
theorem placeholder_offered :
    ¬ Mentions beforeOperator.source ∧ ∃ name,
      name ∈ ((Session.start {} none).complete beforeOperator).1.displays ∧ Mentions name :=
  ⟨by decide, "__augur_caret__in", by
    show _ ∈ ((System.start {} none).session.complete beforeOperator).1.displays
    simp [beforeOperator_displays], by decide⟩

end Operator

end CodeCompletion
