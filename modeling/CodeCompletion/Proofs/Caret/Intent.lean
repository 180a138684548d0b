import CodeCompletion.Proofs.Caret.Agreement
import CodeCompletion.Proofs.Text.Offset
import CodeCompletion.Proofs.Token.Verbatim

/-! What an intent tells of the text at its caret: the part of a name that has been typed, and the
names before it, each with a dot behind it. -/
namespace CodeCompletion

open Place

section Chains

inductive Links : List Token → List String → Prop where
  | nil : Links [] []
  | cons {word : String} {link : Token} {tokens : List Token} {words : List String}
      (dot : link.isDot = true) (later : Links tokens words) :
      Links (.word word :: link :: tokens) (word :: words)

/-- The tokens end with the given names, each with a dot behind it, and with no more such names. -/
def EndsInRun (tokens : List Token) (words : List String) : Prop :=
  ∃ run, run <:+ tokens ∧ Links run words ∧
    ∀ run' words', run' <:+ tokens → Links run' words' → run'.length ≤ run.length

variable {tokens run : List Token} {words : List String} {word : String} {link : Token}

theorem Links.append (h : Links run words) (dot : link.isDot = true) :
    Links (run ++ [.word word, link]) (words ++ [word]) := by
  induction h with
  | nil => exact .cons dot .nil
  | cons dot' _ ih => exact .cons dot' ih

theorem Links.eq_append (h : Links run words) : run = [] ∧ words = [] ∨
    ∃ front names word link, link.isDot = true ∧ run = front ++ [.word word, link] ∧
      words = names ++ [word] ∧ Links front names := by
  induction h with
  | nil => exact Or.inl ⟨rfl, rfl⟩
  | @cons first link tokens words dot later ih =>
    right
    rcases ih with ⟨rfl, rfl⟩ | ⟨front, names, word, last, dot', rfl, rfl, links⟩
    · exact ⟨[], [], first, link, dot, rfl, rfl, .nil⟩
    · exact ⟨.word first :: link :: front, first :: names, word, last, dot', rfl, rfl, .cons dot links⟩

theorem Links.mem (h : Links run words) : ∀ word ∈ words, .word word ∈ run := by
  induction h with
  | nil => nofun
  | cons _ _ ih =>
    intro word member
    rcases List.mem_cons.mp member with rfl | later
    · exact List.mem_cons_self
    · exact List.mem_cons_of_mem _ (List.mem_cons_of_mem _ (ih word later))

theorem endsInRun_nil
    (stops : ∀ link word rest, link.isDot = true → tokens ≠ link :: .word word :: rest) :
    EndsInRun tokens.reverse [] := by
  refine ⟨[], List.nil_suffix, .nil, fun run' words' ends links => ?_⟩
  rcases links.eq_append with ⟨rfl, -⟩ | ⟨front, -, word, link, dot, rfl, -, -⟩
  · exact Nat.le_refl _
  · obtain ⟨before, same⟩ := ends
    have backwards := congrArg List.reverse same
    simp only [List.reverse_append,List.reverse_cons,List.reverse_nil,List.nil_append,
      List.cons_append,List.reverse_reverse] at backwards
    exact absurd backwards.symm (stops link word _ dot)

theorem EndsInRun.append (h : EndsInRun tokens words) (dot : link.isDot = true) :
    EndsInRun (tokens ++ [.word word, link]) (words ++ [word]) := by
  obtain ⟨run, ⟨before, rfl⟩, links, longest⟩ := h
  refine ⟨run ++ [.word word, link], ⟨before, by simp⟩, links.append dot, ?_⟩
  intro run' words' ends links'
  rcases links'.eq_append with ⟨rfl, -⟩ | ⟨front, names, word', link', -, rfl, -, earlier⟩
  · exact Nat.zero_le _
  · obtain ⟨before', same⟩ := ends
    rw [← List.append_assoc] at same
    have shorter := longest front names ⟨before', (List.append_inj' same rfl).1⟩ earlier
    simpa using shorter

/-- The walk back from a dot finds the longest run. -/
theorem chainEndingIn_run {chain : List String} {kind : IntentKind}
    (h : chainEndingIn tokens = some (chain, kind)) (dot : link.isDot = true) :
    EndsInRun (link :: tokens).reverse chain := by
  fun_induction chainEndingIn tokens generalizing chain kind link with
  | case1 word linkable rest ih | case2 word linkable rest ih =>
    obtain ⟨⟨front, kind⟩, found, same⟩ := Option.map_eq_some_iff.mp h
    cases same
    simpa using (ih found rfl).append dot
  | case3 word rest linkable noDot noQuestion =>
    cases h
    have none : EndsInRun rest.reverse [] := by
      refine endsInRun_nil fun other name more isDot same => ?_
      rcases isDot_iff.mp isDot with rfl | rfl
      · exact noDot _ same
      · exact noQuestion _ same
    simpa using none.append dot
  | case5 | case6 | case7 =>
    cases h
    exact endsInRun_nil (by simp)
  | case4 | case8 => cases h

/-- What else is known of a chain and of what it hangs on. -/
theorem chainEndingIn_words {chain : List String} {kind : IntentKind}
    (h : chainEndingIn tokens = some (chain, kind)) :
    (∀ word ∈ chain, isLinkable word = true) ∧ (kind = .identifier → chain ≠ []) := by
  fun_induction chainEndingIn tokens generalizing chain kind with
  | case1 word linkable rest ih | case2 word linkable rest ih =>
    obtain ⟨⟨front, kind⟩, found, same⟩ := Option.map_eq_some_iff.mp h
    cases same
    refine ⟨fun name member => ?_, by simp⟩
    rcases List.mem_append.mp member with earlier | last
    · exact (ih found).1 name earlier
    · obtain rfl := List.mem_singleton.mp last
      exact linkable
  | case3 word rest linkable =>
    cases h
    exact ⟨by simpa using linkable, by simp⟩
  | case5 | case6 | case7 =>
    cases h
    exact ⟨by simp, by simp⟩
  | case4 | case8 => cases h

end Chains

section Intents

variable {tokens : List Token} {intent : Intent}

theorem typed_of_kind {kind : IntentKind} (proper : kind ≠ .property) (chain : List String) :
    (⟨kind, chain⟩ : Intent).typed = chain.getLast?.getD "" := by
  cases kind with
  | property => exact absurd rfl proper
  | _ => rfl

/-- Right after a dot nothing has been typed. -/
theorem intentAtDot_eq_some (h : intentAtDot tokens = some intent) : ∃ chain kind,
    chainEndingIn tokens = some (chain, kind) ∧ intent.typed = "" ∧
      intent.fullChain = chain ++ [""] ∧ intent.kind ≠ .identifier ∧
      (intent.kind = .property → intent.chain ≠ []) := by
  obtain ⟨⟨chain, kind⟩, found, same⟩ := Option.map_eq_some_iff.mp h
  have proper := kind_of_chainEndingIn found
  refine ⟨chain, kind, found, ?_⟩
  simp only at same
  split at same
  next plain =>
    obtain rfl := same
    exact ⟨rfl, rfl, nofun, fun _ => (chainEndingIn_words found).2 plain⟩
  next literal =>
    obtain rfl := same
    refine ⟨?_, ?_, literal, fun property => absurd property proper⟩
    · rw [typed_of_kind proper]
      by_cases none : chain = [] <;> simp [none]
    · by_cases none : chain = [] <;> simp [Intent.fullChain,proper,none]

/-- In a word its first part has been typed. -/
theorem intentInWord_eq_some {typed : String} (h : intentInWord tokens typed = some intent) :
    intent.typed = typed ∧ intent.kind ≠ .property ∧ ∃ chain, intent.fullChain = chain ++ [typed] ∧
      EndsInRun tokens.reverse chain ∧ ∀ word ∈ chain, isLinkable word = true := by
  have proper := kind_of_intentInWord h
  have linked {chain : List String} {kind : IntentKind} (proper : kind ≠ .property) :
      (⟨kind, chain ++ [typed]⟩ : Intent).typed = typed ∧
        (⟨kind, chain ++ [typed]⟩ : Intent).fullChain = chain ++ [typed] := by
    constructor
    · simp [typed_of_kind proper]
    · simp [Intent.fullChain,proper]
  unfold intentInWord at h
  split at h
  case h_1 rest | h_2 rest =>
    obtain ⟨⟨chain, kind⟩, found, rfl⟩ := Option.map_eq_some_iff.mp h
    obtain ⟨same, full⟩ := linked (kind_of_chainEndingIn found)
    exact ⟨same, proper, chain, full, chainEndingIn_run found rfl, (chainEndingIn_words found).1⟩
  case h_3 noDot noQuestion =>
    cases h
    refine ⟨rfl, proper, [], rfl, endsInRun_nil fun link word rest dot same => ?_, by simp⟩
    rcases isDot_iff.mp dot with rfl | rfl
    · exact noDot _ same
    · exact noQuestion _ same

end Intents

section Carets

variable {source : String} {caret : Position} {intent : Intent} {ls : List Lexeme} {offset : Nat}

structure Sliced (source : String) (caret : Position) (before after left right : List Char)
    (ls : List Lexeme) : Prop where
  whole : source.toList = before ++ after
  position : (origin.afterAll before).position = caret
  slice : surroundingSlice before after = some (left, right)
  lexed : lexChars (left ++ right) = .ok ls

theorem contextAt_eq_some (h : contextAt source caret = some intent) :
    ∃ before after left right ls, Sliced source caret before after left right ls ∧
      intentAmong ls (byteLength left) = some intent := by
  obtain ⟨offset, place, inText⟩ := Option.bind_eq_some_iff.mp h
  obtain ⟨⟨before, after⟩, split, around⟩ := Option.bind_eq_some_iff.mp inText
  obtain ⟨⟨left, right⟩, slice, inSlice⟩ := Option.bind_eq_some_iff.mp around
  obtain ⟨whole, size⟩ := splitAtByte_eq_some split
  obtain ⟨xs, ys, cut, position⟩ := LineTable.offset?_eq_some.mp place
  have length : byteLength xs = offset := by rw [← offset_origin_afterAll,position]
  obtain ⟨rfl, rfl⟩ := append_cancel (cut.symm.trans whole) (length.trans size.symm)
  simp only at inSlice
  split at inSlice
  next ls lexed =>
    exact ⟨xs, ys, left, right, ls, ⟨whole, by rw [position], slice, lexed⟩, inSlice⟩
  next => cases inSlice

/-- Where the name that is being typed stands among the lexemes: behind so many of them. -/
inductive TypedAt (ls : List Lexeme) (offset : Nat) : Nat → String → Prop where
  | missing {index : Nat} {l : Lexeme} (found : ls[index]? = some l) (dot : l.token.isDot = true)
      (starts : l.span.start.offset < offset) (stops : offset ≤ l.span.stop.offset) :
      TypedAt ls offset (index + 1) ""
  | begun {index : Nat} {l : Lexeme} {name typed : String} (found : ls[index]? = some l)
      (token : l.token = .word name) (begins : typed.toList <+: name.toList) (nonempty : typed ≠ "")
      (starts : l.span.start.offset + byteLength typed.toList = offset) :
      TypedAt ls offset index typed

/-- How an intent at an offset comes from the lexemes, of which `index` stand before what is being
typed. -/
structure Intent.Stands (intent : Intent) (ls : List Lexeme) (offset index : Nat) : Prop where
  typed : TypedAt ls offset index intent.typed
  last : intent.fullChain.getLast? = some intent.typed
  run : EndsInRun ((ls.take index).map (·.token)) intent.parents
  linkable : ∀ word ∈ intent.parents, isLinkable word = true
  property : intent.kind = .property → intent.chain ≠ []
  untyped : intent.typed = "" → intent.kind ≠ .identifier

theorem stands_of_intentAtDot {index : Nat} {l : Lexeme} (found : ls[index]? = some l)
    (dot : l.token.isDot = true) (starts : l.span.start.offset < offset)
    (stops : offset ≤ l.span.stop.offset)
    (h : intentAtDot ((ls.take index).reverse.map (·.token)) = some intent) :
    intent.Stands ls offset (index + 1) := by
  obtain ⟨chain, kind, chained, typed, full, literal, nonempty⟩ := intentAtDot_eq_some h
  have parents : intent.parents = chain := by simp [Intent.parents,full]
  have run := chainEndingIn_run chained dot
  constructor
  · rw [typed]
    exact .missing found dot starts stops
  · simp [full,typed]
  · rw [parents,List.take_add_one,found]
    simpa using run
  · rw [parents]
    exact (chainEndingIn_words chained).1
  · exact nonempty
  · exact fun _ => literal

theorem stands_of_intentInWord {index : Nat} {l : Lexeme} {name : String} {typed rest : List Char}
    (found : ls[index]? = some l) (token : l.token = .word name)
    (whole : name.toList = typed ++ rest) (starts : l.span.start.offset < offset)
    (size : l.span.start.offset + byteLength typed = offset)
    (h : intentInWord ((ls.take index).reverse.map (·.token)) (String.ofList typed) = some intent) :
    intent.Stands ls offset index := by
  obtain ⟨same, proper, chain, full, run, linkable⟩ := intentInWord_eq_some h
  have parents : intent.parents = chain := by simp [Intent.parents,full]
  have begun : String.ofList typed ≠ "" := by
    intro none
    obtain rfl : typed = [] := by simpa using congrArg String.toList none
    simp only [byteLength_nil] at size
    omega
  constructor
  · rw [same]
    refine .begun found token ?_ begun ?_
    · rw [whole,String.toList_ofList]
      exact List.prefix_append _ _
    · rwa [String.toList_ofList]
  · simp [full,same]
  · rw [parents]
    simpa using run
  · rwa [parents]
  · exact fun property => absurd property proper
  · exact fun none => absurd (same.symm.trans none) begun

/-- An intent is what has been typed behind the longest run of names. -/
theorem stands_of_intentAmong (h : intentAmong ls offset = some intent) :
    ∃ index, intent.Stands ls offset index := by
  obtain ⟨index, l, found, -, starts, stops, ⟨dot, atDot⟩ | ⟨name, typed, rest, token, whole, size,
    inWord⟩⟩ := intentAmong_cases h
  · exact ⟨index + 1, stands_of_intentAtDot found dot starts stops atDot⟩
  · exact ⟨index, stands_of_intentInWord found token whole starts size inWord⟩

variable {before after left right : List Char}

/-- A slice lies around its caret. -/
theorem Sliced.around (h : Sliced source caret before after left right ls) :
    left <:+ before ∧ right <+: after := by
  obtain ⟨skipped, line, tail, rest, rfl, rfl, rfl, begins, -, -⟩ := surroundingSlice_eq_some h.slice
  exact ⟨List.suffix_append _ _, (List.prefix_append_right_inj _).mpr begins⟩

theorem Sliced.caret_offset (h : Sliced source caret before after left right ls) :
    (LineTable.ofChars source.toList).offset? source.toList caret = some (byteLength before) := by
  refine LineTable.offset?_eq_some.mpr ⟨before, after, h.whole, ?_⟩
  rw [← h.position,← offset_origin_afterAll]

def NameText (text : String) : Prop :=
  ∃ c rest, text.toList = c :: rest ∧ isNameStart c = true ∧ ∀ d ∈ rest, isNameContinue d = true

theorem nameText_of_begins {name typed : String} {chars rest : List Char}
    (spelled : WordSpelling name chars rest) (begins : typed.toList <+: name.toList)
    (nonempty : typed ≠ "") : NameText typed := by
  obtain ⟨c, first, start⟩ := List.exists_cons_of_ne_nil (mt String.toList_eq_nil_iff.mp nonempty)
  obtain ⟨more, whole⟩ := begins
  have starts := spelled.starts
  have continues := spelled.continues
  rw [spelled.same,← whole,start] at starts continues
  refine ⟨c, first, start, starts, fun d member => continues d ?_⟩
  exact List.mem_cons_of_mem c (List.mem_append_left more member)

theorem nameText_of_word {text : List Char} {name : String} (lexed : lexChars text = .ok ls)
    (member : .word name ∈ ls.map (·.token)) : NameText name := by
  obtain ⟨l, among, token⟩ := List.mem_map.mp member
  obtain ⟨front, chars, rest, -, placed⟩ := placed_of_lexChars lexed among (by simp [token])
  have spelled := (token ▸ placed.spelling).of_word
  refine nameText_of_begins spelled (List.prefix_refl _) fun none => ?_
  have starts := spelled.starts
  simp [spelled.same,none] at starts

/-- What has been typed is what stands before the caret. -/
theorem TypedAt.ends_left {index : Nat} {typed : String} (lexed : lexChars (left ++ right) = .ok ls)
    (h : TypedAt ls (byteLength left) index typed) :
    typed.toList <:+ left ∧ (typed = "" ∨ NameText typed) := by
  cases h with
  | missing => exact ⟨List.nil_suffix, Or.inl rfl⟩
  | begun found token begins nonempty starts =>
    obtain ⟨front, chars, rest, whole, placed⟩ :=
      placed_of_lexChars lexed (List.mem_of_getElem? found) (by simp [token])
    have spelled := (token ▸ placed.spelling).of_word
    refine ⟨?_, Or.inr (nameText_of_begins spelled begins nonempty)⟩
    obtain ⟨more, name⟩ := begins
    rw [spelled.same,← name] at whole
    rw [placed.span,offset_origin_afterAll,← byteLength_append] at starts
    have cut : left ++ right = (front ++ typed.toList) ++ (more ++ rest) := by simpa using whole
    rw [(append_cancel cut starts.symm).1]
    exact List.suffix_append _ _

/-- How an intent describes a caret with the text `before` it, from the lexemes of a slice. -/
structure Intent.Describes (intent : Intent) (before : List Char) (ls : List Lexeme)
    (offset : Nat) : Prop where
  before : intent.typed.toList <:+ before
  typed : intent.typed = "" ∨ NameText intent.typed
  last : intent.fullChain.getLast? = some intent.typed
  parents : ∀ word ∈ intent.parents, NameText word ∧ (word = "this" ∨ word ∉ reservedWords)
  /-- The other names are the longest run of names right before what has been typed. -/
  run : ∃ index, TypedAt ls offset index intent.typed ∧
    EndsInRun ((ls.take index).map (·.token)) intent.parents
  property : intent.kind = .property → intent.chain ≠ []

theorem isLinkable_iff {word : String} :
    isLinkable word = true ↔ word = "this" ∨ word ∉ reservedWords := by
  simp [isLinkable,isReserved]

/-- Every intent describes its caret. -/
theorem contextAt_describes (source : String) (caret : Position) (intent : Intent)
    (h : contextAt source caret = some intent) : ∃ before after left right ls,
      Sliced source caret before after left right ls ∧
      intent.Describes before ls (byteLength left) := by
  obtain ⟨before, after, left, right, ls, sliced, among⟩ := contextAt_eq_some h
  obtain ⟨index, stands⟩ := stands_of_intentAmong among
  obtain ⟨typed, name⟩ := stands.typed.ends_left sliced.lexed
  refine ⟨before, after, left, right, ls, sliced, typed.trans sliced.around.1, name, stands.last, ?_,
    ⟨index, stands.typed, stands.run⟩, stands.property⟩
  intro word member
  refine ⟨?_, isLinkable_iff.mp (stands.linkable word member)⟩
  obtain ⟨run, ends, links, -⟩ := stands.run
  refine nameText_of_word sliced.lexed ?_
  have inside := ends.subset (links.mem word member)
  rw [List.map_take] at inside
  exact List.mem_of_mem_take inside

/-- The last name of a chain over two kinds of dots, cut by the caret, in a line that comes after
a literal over two lines. -/
theorem contextAt_describes_cut :
    contextAt "\x60'\n\x60;\nthis?.é.baz" ⟨2, 10⟩ = some ⟨.identifier, ["this", "é", "ba"]⟩ ∧
    ∃ before after left right ls,
      Sliced "\x60'\n\x60;\nthis?.é.baz" ⟨2, 10⟩ before after left right ls ∧
      (⟨.identifier, ["this", "é", "ba"]⟩ : Intent).Describes before ls (byteLength left) := by
  have found : contextAt "\x60'\n\x60;\nthis?.é.baz" ⟨2, 10⟩ =
      some ⟨.identifier, ["this", "é", "ba"]⟩ := by decide +kernel
  exact ⟨found, contextAt_describes _ _ _ found⟩

/-- A part of a dot is the dot itself, or the question mark that may belong to it. -/
theorem part_of_link {l : Lexeme} {front chars rest : List Char} (placed : l.Placed front chars rest)
    (dot : l.token.isDot = true) {part : List Char} (nonempty : part ≠ []) (begins : part <+: chars) :
    part.getLast? = some '.' ∨ part = ['?'] ∧ chars = ['?', '.'] := by
  have text := placed.spelling.keeps.text
  obtain ⟨c, more, rfl⟩ := List.exists_cons_of_ne_nil nonempty
  rcases isDot_iff.mp dot with token | token
  · obtain rfl : chars = ['.'] := text "." (by rw [token]; rfl)
    obtain ⟨rfl, rfl⟩ : c = '.' ∧ more = [] := by simpa using begins
    exact Or.inl rfl
  · obtain rfl : chars = ['?', '.'] := text "?." (by rw [token]; rfl)
    obtain ⟨rfl, begins⟩ := List.cons_prefix_cons.mp begins
    cases more with
    | nil => exact Or.inr ⟨rfl, rfl⟩
    | cons d more =>
      obtain ⟨rfl, rfl⟩ : d = '.' ∧ more = [] := by simpa using begins
      exact Or.inl rfl

/-- Where nothing has been typed, the caret is at the end of a dot or in the middle of one. -/
theorem TypedAt.untyped {index : Nat} (lexed : lexChars (left ++ right) = .ok ls)
    (h : TypedAt ls (byteLength left) index "") :
    left.getLast? = some '.' ∨ left.getLast? = some '?' ∧ right.head? = some '.' := by
  generalize none : "" = typed at h
  cases h with
  | begun found token begins nonempty starts => exact absurd none.symm nonempty
  | @missing index l found dot starts stops =>
    have other : l.token ≠ .endOfInput := by
      intro token
      simp [token,Token.isDot] at dot
    obtain ⟨front, chars, rest, whole, placed⟩ :=
      placed_of_lexChars lexed (List.mem_of_getElem? found) other
    rw [placed.span,offset_origin_afterAll] at starts stops
    obtain ⟨part, nonempty, rfl, begins⟩ := part_of_byteLength whole starts stops
    rw [List.getLast?_append_of_ne_nil _ nonempty]
    rcases part_of_link placed dot nonempty begins with last | ⟨rfl, rfl⟩
    · exact Or.inl last
    · have after : right = '.' :: rest := by simpa using whole
      exact Or.inr ⟨rfl, by rw [after]; rfl⟩

theorem Sliced.dot_before {index : Nat} (h : Sliced source caret before after left right ls)
    (typed : TypedAt ls (byteLength left) index "") :
    before.getLast? = some '.' ∨ before.getLast? = some '?' ∧ after.head? = some '.' := by
  have last := typed.untyped h.lexed
  obtain ⟨⟨skipped, rfl⟩, ⟨rest, rfl⟩⟩ := h.around
  have nonempty : left ≠ [] := by
    rintro rfl
    simp at last
  rw [List.getLast?_append_of_ne_nil _ nonempty]
  refine last.imp_right (And.imp_right fun head => ?_)
  rw [List.head?_append,head]
  rfl

/-- Where nothing has been typed, a dot stands right before the caret, or the caret is between a
question mark and its dot. -/
theorem contextAt_untyped (source : String) (caret : Position) (intent : Intent)
    (h : contextAt source caret = some intent) (untyped : intent.typed = "") :
    intent.kind ≠ .identifier ∧ ∃ before after, source.toList = before ++ after ∧
      (origin.afterAll before).position = caret ∧
      (before.getLast? = some '.' ∨ before.getLast? = some '?' ∧ after.head? = some '.') := by
  obtain ⟨before, after, left, right, ls, sliced, among⟩ := contextAt_eq_some h
  obtain ⟨index, stands⟩ := stands_of_intentAmong among
  exact ⟨stands.untyped untyped, before, after, sliced.whole, sliced.position,
    sliced.dot_before (untyped ▸ stands.typed)⟩

/-- After the second dot behind a literal. -/
theorem contextAt_untyped_literal :
    contextAt "'a'.b?.c" ⟨0, 7⟩ = some ⟨.string, ["b", ""]⟩ ∧
    (⟨.string, ["b", ""]⟩ : Intent).typed = "" ∧
    (⟨.string, ["b", ""]⟩ : Intent).kind ≠ .identifier ∧ ∃ before after,
      "'a'.b?.c".toList = before ++ after ∧ (origin.afterAll before).position = ⟨0, 7⟩ ∧
      (before.getLast? = some '.' ∨ before.getLast? = some '?' ∧ after.head? = some '.') := by
  have found : contextAt "'a'.b?.c" ⟨0, 7⟩ = some ⟨.string, ["b", ""]⟩ := by decide +kernel
  exact ⟨found, rfl, contextAt_untyped _ _ _ found rfl⟩

/-- Between a question mark and its dot a property is completed as if it were after the dot. -/
theorem contextAt_inside_dot :
    contextAt "a?.b" ⟨0, 2⟩ = some ⟨.property, ["a"]⟩ ∧
    (⟨.property, ["a"]⟩ : Intent).typed = "" ∧ "a?.b".toList = ['a', '?'] ++ ['.', 'b'] ∧
    (origin.afterAll ['a', '?']).position = ⟨0, 2⟩ ∧ ['a', '?'].getLast? ≠ some '.' :=
  ⟨by decide +kernel, rfl, rfl, rfl, by decide⟩

end Carets

end CodeCompletion
