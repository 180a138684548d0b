import CodeCompletion.Proofs.Token.Concatenation
import Mathlib.Data.List.Basic

/-! How tokens are spelled. A word is a run of name characters that nothing continues, a string
without a backslash is its value between quotes, and where a lexeme starts no name runs on from
what stands before it. -/
namespace CodeCompletion

variable {before rest text : List Char}

/-- No name runs across the place between two texts. -/
def Parted (before after : List Char) : Prop :=
  ∀ c ∈ before.getLast?, isNameContinue c = true → after.head?.any isNameStart = false

theorem parted_of_not_start (ends : rest.head?.any isNameStart = false) : Parted before rest :=
  fun _ _ _ => ends

theorem parted_of_not_continue (ends : rest.head?.any isNameContinue = false) :
    Parted before rest := by
  refine parted_of_not_start ?_
  cases rest with
  | nil => rfl
  | cons c rest =>
    refine eq_false_of_ne_true fun starts => ?_
    have continues := isNameContinue_of_isNameStart starts
    exact absurd continues (by simpa using ends)

theorem parted_of_last {c : Char} (ends : isNameContinue c = false) :
    Parted (before ++ [c]) rest := by
  intro d last continues
  obtain rfl : c = d := by simpa using last
  simp [ends] at continues

theorem parted_of_atLineEnd (ends : AtLineEnd rest) : Parted before rest := by
  refine parted_of_not_start ?_
  rcases atLineEnd_iff.mp ends with rfl | ⟨rest, rfl⟩
  · rfl
  · exact (by decide : isNameStart '\n' = false)

/-- What stands further before makes no difference. -/
theorem Parted.append {chars : List Char} (parted : Parted chars rest) (nonempty : chars ≠ [])
    (before : List Char) : Parted (before ++ chars) rest := by
  intro c last
  rw [List.getLast?_append_of_ne_nil before nonempty] at last
  exact parted c last

section Gaps

def gapCodes : List Nat :=
  [0x9, 0xa, 0xb, 0xc, 0xd, 0x20, 0x85, 0xa0, 0x1680, 0x2000, 0x2001, 0x2002, 0x2003, 0x2004,
    0x2005, 0x2006, 0x2007, 0x2008, 0x2009, 0x200a, 0x2028, 0x2029, 0x202f, 0x205f, 0x3000, 0xfeff]

theorem gapCodes_not_continue : ∀ n ∈ gapCodes, isNameContinue (Char.ofNat n) = false := by
  decide +kernel

theorem mem_gapCodes {c : Char} (blank : isBlank c = true ∨ c = '\uFEFF') : c.toNat ∈ gapCodes := by
  rcases blank with blank | rfl
  · simp only [isBlank,Bool.or_eq_true,Bool.and_eq_true,decide_eq_true_eq] at blank
    rcases blank with (rfl | ascii) | other
    · decide
    · simp only [gapCodes,List.mem_cons]
      omega
    · simp [Ranges.contains,blankRanges] at other
      simp only [gapCodes,List.mem_cons]
      omega
  · decide

theorem isNameContinue_of_blank {c : Char} (blank : isBlank c = true ∨ c = '\uFEFF') :
    isNameContinue c = false := by
  rw [← Char.ofNat_toNat c]
  exact gapCodes_not_continue _ (mem_gapCodes blank)

/-- A gap parts what it lies between, or it is empty. -/
theorem Gap.parted {gap : List Char} (h : Gap rest gap) (parted : Parted before (gap ++ rest)) :
    Parted (before ++ gap) rest := by
  induction h generalizing before with
  | nil => simpa using parted
  | @blank c gap blank _ ih =>
    rw [List.append_cons]
    exact ih (parted_of_last (isNameContinue_of_blank blank))
  | @line body gap _ ends _ ih =>
    rw [show before ++ '/' :: '/' :: (body ++ gap) = (before ++ '/' :: '/' :: body) ++ gap by simp]
    exact ih (parted_of_atLineEnd ends)
  | @block body gap _ _ ih =>
    rw [show before ++ '/' :: '*' :: (body ++ '*' :: '/' :: gap) =
      (before ++ '/' :: '*' :: (body ++ ['*'])) ++ ['/'] ++ gap by simp]
    exact ih (parted_of_last (by decide))

end Gaps

section Literals

def ClosedBy (stop : Char) (text : List Char) (size : Nat) : Prop :=
  ∃ body rest, text = body ++ stop :: rest ∧ size = body.length + 1

/-- One character and `n` more are read before the rest. -/
theorem ClosedBy.after {stop : Char} {n size : Nat} (c : Char)
    (closed : ClosedBy stop (text.drop n) size) : ClosedBy stop (c :: text) (1 + n + size) := by
  obtain ⟨body, rest, split, rfl⟩ := closed
  have le : n ≤ text.length := by
    by_contra past
    rw [List.drop_eq_nil_of_le (by omega)] at split
    simp at split
  refine ⟨c :: (text.take n ++ body), rest, ?_, by simp; omega⟩
  rw [List.cons_append,List.append_assoc,← split,List.take_append_drop]

/-- The characters that are read end with `stop`. -/
theorem ClosedBy.take {stop : Char} {chars rest : List Char}
    (closed : ClosedBy stop (chars ++ rest) chars.length) : ∃ body, chars = body ++ [stop] := by
  obtain ⟨body, more, split, size⟩ := closed
  have same : chars ++ rest = (body ++ [stop]) ++ more := by simpa using split
  exact ⟨body, (List.append_inj same (by simp [size])).1⟩

theorem stringBody_closed {quote : Char} {b : Reading (List Char)}
    (h : stringBody quote text = .ok b) : ClosedBy quote text b.size := by
  fun_induction stringBody quote text generalizing b with
  | case1 => cases h
  | case2 => cases h
  | case3 rest =>
    cases h
    exact ⟨[], rest, rfl, rfl⟩
  | case4 => cases h
  | case5 => cases h
  | case6 rest e _ b later _ _ ih =>
    cases h
    exact (ih later).after '\\'
  | case7 => cases h
  | case8 c rest _ _ _ b later ih =>
    cases h
    have past : ClosedBy quote (rest.drop 0) b.size := ih later
    exact past.after c

/-- Without a backslash a string stands for what is written. -/
theorem stringBody_value {quote : Char} {b : Reading (List Char)}
    (h : stringBody quote text = .ok b) :
    '\\' ∈ text.take b.size ∨ text.take b.size = b.value ++ [quote] := by
  fun_induction stringBody quote text generalizing b with
  | case1 => cases h
  | case2 => cases h
  | case3 rest =>
    cases h
    exact Or.inr rfl
  | case4 => cases h
  | case5 => cases h
  | case6 rest e _ b later _ _ ih =>
    cases h
    refine Or.inl ?_
    rw [Nat.add_assoc,Nat.add_comm 1,List.take_succ_cons]
    exact List.mem_cons_self
  | case7 => cases h
  | case8 c rest _ _ _ b later ih =>
    cases h
    simp only [Nat.add_comm 1,List.take_succ_cons,List.cons_append]
    rcases ih later with escaped | same
    · exact Or.inl (List.mem_cons_of_mem c escaped)
    · exact Or.inr (by rw [same])

end Literals

section Spelling

def marks : List (List Char × Token) :=
  punctuators ++ [(['/'], .op "/"), (['/', '='], .op "/=")]

/-- The characters of a token, before the text `rest`. -/
inductive Spelling (rest : List Char) : Token → List Char → Prop where
  | word {c : Char} {name : List Char} (starts : isNameStart c = true)
      (continues : ∀ d ∈ name, isNameContinue d = true)
      (ends : rest.head?.any isNameContinue = false) :
      Spelling rest (.word (String.ofList (c :: name))) (c :: name)
  | string {quote : Char} {value : List Char} (quotes : quote = '"' ∨ quote = '\'') :
      Spelling rest (.str (String.ofList value)) (quote :: (value ++ [quote]))
  | escaped {quote : Char} {value : String} {body : List Char} (quotes : quote = '"' ∨ quote = '\'')
      (escapes : '\\' ∈ body) : Spelling rest (.str value) (quote :: (body ++ [quote]))
  | template {raw : List Char} :
      Spelling rest (.template (String.ofList raw)) ('\x60' :: (raw ++ ['\x60']))
  | number {x : Binary64} {chars : List Char} (ends : rest.head?.any isNameStart = false) :
      Spelling rest (.num x) chars
  | regex {pattern flags : List Char} (continues : ∀ c ∈ flags, isNameContinue c = true)
      (ends : rest.head?.any isNameContinue = false) :
      Spelling rest (.regex (String.ofList pattern) (String.ofList flags))
        ('/' :: (pattern ++ '/' :: flags))
  | mark {chars : List Char} {token : Token} (listed : (chars, token) ∈ marks) :
      Spelling rest token chars

/-- A run of name characters ends where none follows. -/
theorem head?_dropWhile_not (p : Char → Bool) (text : List Char) :
    (text.dropWhile p).head?.any p = false := by
  have stops := List.head?_dropWhile_not p text
  cases after : text.dropWhile p with
  | nil => rfl
  | cons c more =>
    rw [after] at stops
    exact stops

variable {chars : List Char} {c : Char} {start : Place} {last : Option Token} {token : Token}

theorem spelling_of_string {literal : Reading String} (quotes : c = '"' ∨ c = '\'')
    (read : stringLiteral (c :: (chars ++ rest)) = .ok literal)
    (size : literal.size = chars.length + 1) :
    Spelling rest (.str literal.value) (c :: chars) := by
  obtain ⟨body, closed, rfl⟩ := map_eq_ok.mp read
  have whole : body.size = chars.length := by simpa [Nat.add_comm 1] using size
  obtain ⟨inner, rfl⟩ := (whole ▸ stringBody_closed closed).take
  have value := stringBody_value closed
  rw [whole,List.take_left] at value
  rcases value with escaped | same
  · have other : '\\' ≠ c := by rcases quotes with rfl | rfl <;> decide
    exact .escaped quotes (by simpa [other] using escaped)
  · obtain rfl : inner = body.value := List.append_cancel_right same
    exact .string quotes

/-- No name may follow a number directly. -/
theorem numberLiteral_ends {r : Reading Binary64} (h : numberLiteral text = .ok r) :
    (text.drop r.size).head?.any isNameStart = false := by
  simp only [numberLiteral] at h
  split at h
  next => cases h
  next digits _ =>
    generalize digits.size + _ = size at h
    split at h
    next => cases h
    next ends =>
      cases h
      exact eq_false_of_ne_true ends

theorem spelling_of_punctuator (read : punctuator? (c :: (chars ++ rest)) =
    some ⟨token, chars.length + 1⟩) : Spelling rest token (c :: chars) := by
  unfold punctuator? at read
  split at read
  next opening =>
    obtain ⟨rfl, start⟩ := List.cons.inj opening
    split at read
    · obtain ⟨rfl, size⟩ := Reading.mk.inj (Option.some.inj read)
      obtain rfl : chars = [] := by simpa using size
      exact .mark (by decide)
    · obtain ⟨rfl, size⟩ := Reading.mk.inj (Option.some.inj read)
      obtain ⟨d, rfl⟩ : ∃ d, chars = [d] := List.length_eq_one_iff.mp (by simpa using size.symm)
      obtain ⟨rfl, -⟩ := List.cons.inj start
      exact .mark (by decide)
  next =>
    obtain ⟨entry, found, same⟩ := Option.map_eq_some_iff.mp read
    obtain ⟨rfl, size⟩ := Reading.mk.inj same
    have begins : entry.1 <+: c :: (chars ++ rest) := by simpa using List.find?_some found
    have spelled : entry.1 = c :: chars := by
      rw [List.prefix_iff_eq_take.mp begins,size,List.take_succ_cons,List.take_left]
    exact .mark (spelled ▸ List.mem_append_left _ (List.mem_of_find?_eq_some found))

theorem spelling_of_slash (read : slashToken last ('/' :: (chars ++ rest)) =
    .ok ⟨token, chars.length + 1⟩) : Spelling rest token ('/' :: chars) := by
  unfold slashToken at read
  split at read
  next =>
    obtain ⟨literal, found, same⟩ := map_eq_ok.mp read
    obtain ⟨rfl, size⟩ := Reading.mk.inj same
    simp only [regexLiteral] at found
    split at found
    next => cases found
    next pattern closed =>
      cases found
      have length : pattern.size + runLength isNameContinue ((chars ++ rest).drop pattern.size) =
          chars.length := by
        simp only [runLength] at size ⊢
        omega
      have after := drop_runLength isNameContinue ((chars ++ rest).drop pattern.size)
      rw [List.drop_drop,length,List.drop_left] at after
      -- the pattern with its slash, and then the run of flags
      have spelled : chars = pattern.value ++ ['/'] ++
          ((chars ++ rest).drop pattern.size).takeWhile isNameContinue := by
        rw [← (upTo_regexPattern closed).take,← take_runLength,← List.take_add,length,
          List.take_left]
      generalize run : ((chars ++ rest).drop pattern.size).takeWhile isNameContinue = flags at spelled
      have ends : rest.head?.any isNameContinue = false :=
        after ▸ head?_dropWhile_not isNameContinue _
      have continues : ∀ d ∈ flags, isNameContinue d = true := fun d member =>
        List.mem_takeWhile_imp (run ▸ member)
      rw [spelled,List.append_assoc,List.singleton_append]
      exact .regex continues ends
  next =>
    split at read
    next start =>
      obtain ⟨rfl, size⟩ := Reading.mk.inj (Except.ok.inj read)
      obtain ⟨d, rfl⟩ : ∃ d, chars = [d] := List.length_eq_one_iff.mp (by simpa using size.symm)
      obtain ⟨-, start⟩ := List.cons.inj start
      obtain ⟨rfl, -⟩ := List.cons.inj start
      exact .mark (by decide)
    next =>
      obtain ⟨rfl, size⟩ := Reading.mk.inj (Except.ok.inj read)
      obtain rfl : chars = [] := by simpa using size
      exact .mark (by decide)

/-- A token that is read is spelled with the characters that it takes up. -/
theorem spelling_of_readToken
    (read : readToken start last c (chars ++ rest) = .ok ⟨token, chars.length + 1⟩) :
    Spelling rest token (c :: chars) := by
  simp only [readToken] at read
  split at read
  next quote =>
    obtain ⟨literal, found, same⟩ := map_eq_ok.mp (mapError_eq_ok.mp read)
    obtain ⟨rfl, size⟩ := Reading.mk.inj same
    exact spelling_of_string quote found size
  next =>
  split at read
  next tick =>
    obtain ⟨literal, found, same⟩ := map_eq_ok.mp read
    obtain ⟨rfl, size⟩ := Reading.mk.inj same
    obtain ⟨raw, closed, rfl⟩ := map_eq_ok.mp found
    have whole : raw.size = chars.length := by simpa [Nat.add_comm 1] using size
    have spelled := (upTo_templateText closed).take
    rw [whole,List.take_left] at spelled
    subst tick spelled
    exact .template
  next =>
  split at read
  next =>
    obtain ⟨literal, found, same⟩ := map_eq_ok.mp (mapError_eq_ok.mp read)
    obtain ⟨rfl, size⟩ := Reading.mk.inj same
    have ends := numberLiteral_ends found
    rw [size,List.drop_succ_cons,List.drop_left] at ends
    exact .number ends
  next =>
  split at read
  next starts =>
    obtain ⟨same, size⟩ := Reading.mk.inj (Except.ok.inj read)
    rw [List.takeWhile_cons_of_pos (isNameContinue_of_isNameStart starts)] at same size
    have length : (List.takeWhile isNameContinue (chars ++ rest)).length = chars.length := by
      simpa using size
    have split := List.takeWhile_append_dropWhile (p := isNameContinue) (l := chars ++ rest)
    obtain ⟨run, after⟩ := List.append_inj split length
    rw [run] at same
    rw [← same]
    refine .word starts (fun d member => ?_) (after ▸ head?_dropWhile_not isNameContinue _)
    exact List.mem_takeWhile_imp (run ▸ member)
  next =>
  split at read
  next => cases read
  next =>
  split at read
  next slash =>
    subst slash
    exact spelling_of_slash (mapError_eq_ok.mp read)
  next =>
  split at read
  next found =>
    cases read
    exact spelling_of_punctuator found
  next => cases read

theorem marks_not_continue : ∀ entry ∈ marks, ∀ c ∈ entry.1, isNameContinue c = false := by
  have all : ∀ entry ∈ marks, (entry.1.all fun c => !isNameContinue c) = true := by decide +kernel
  intro entry member c inside
  simpa using List.all_eq_true.mp (all entry member) c inside

/-- Two tokens that would run together are one. -/
theorem Spelling.parted (spelled : Spelling rest token chars) : Parted chars rest := by
  have quoted {quote : Char} (quotes : quote = '"' ∨ quote = '\'') :
      isNameContinue quote = false := by
    rcases quotes with rfl | rfl <;> decide
  cases spelled with
  | word _ _ ends => exact parted_of_not_continue ends
  | @string quote value quotes =>
    have parted : Parted ((quote :: value) ++ [quote]) rest := parted_of_last (quoted quotes)
    exact parted
  | @escaped quote _ body quotes _ =>
    have parted : Parted ((quote :: body) ++ [quote]) rest := parted_of_last (quoted quotes)
    exact parted
  | @template raw =>
    have parted : Parted (('\x60' :: raw) ++ ['\x60']) rest := parted_of_last (by decide)
    exact parted
  | number ends => exact parted_of_not_start ends
  | regex _ ends => exact parted_of_not_continue ends
  | mark listed =>
    intro c last continues
    have plain := marks_not_continue _ listed c (List.mem_of_getLast? last)
    simp [plain] at continues

def Token.isText : Token → Bool
  | .word _ | .str _ | .template _ | .num _ | .regex _ _ => true
  | _ => false

theorem marks_not_text : ∀ entry ∈ marks, entry.2.isText = false := by decide

/-- The characters of a word are those of its name, and no more could be. -/
structure WordSpelling (name : String) (chars rest : List Char) : Prop where
  same : chars = name.toList
  starts : chars.head?.any isNameStart = true
  continues : ∀ c ∈ chars, isNameContinue c = true
  ends : rest.head?.any isNameContinue = false

theorem Spelling.of_word {name : String} (spelled : Spelling rest (.word name) chars) :
    WordSpelling name chars rest := by
  generalize same : Token.word name = token at spelled
  cases spelled with
  | word starts continues ends =>
    cases same
    refine ⟨String.toList_ofList.symm, starts, ?_, ends⟩
    exact List.forall_mem_cons.mpr ⟨isNameContinue_of_isNameStart starts, continues⟩
  | mark listed =>
    subst same
    exact absurd (marks_not_text _ listed) (by simp [Token.isText])
  | _ => cases same

theorem Spelling.of_str {value : String} (spelled : Spelling rest (.str value) chars) :
    ∃ quote body, (quote = '"' ∨ quote = '\'') ∧ chars = quote :: (body ++ [quote]) ∧
      ('\\' ∈ body ∨ body = value.toList) := by
  generalize same : Token.str value = token at spelled
  cases spelled with
  | string quotes =>
    cases same
    exact ⟨_, _, quotes, rfl, Or.inr String.toList_ofList.symm⟩
  | escaped quotes escapes => exact ⟨_, _, quotes, rfl, Or.inl escapes⟩
  | mark listed =>
    subst same
    exact absurd (marks_not_text _ listed) (by simp [Token.isText])
  | _ => cases same

end Spelling

structure Lexeme.Placed (l : Lexeme) (before chars after : List Char) : Prop where
  span : l.span = ⟨Place.origin.afterAll before, Place.origin.afterAll (before ++ chars)⟩
  parted : Parted before (chars ++ after)
  spelling : Spelling after l.token chars
  read : ∃ last c more, chars = c :: more ∧
    readToken (Place.origin.afterAll before) last c (more ++ after) = .ok ⟨l.token, more.length + 1⟩

theorem Lexed.placed {last : Option Token} {ls : List Lexeme}
    (h : Lexed (Place.origin.afterAll before) last text ls) (parted : Parted before text) :
    ∀ l ∈ ls, l.token ≠ .endOfInput → ∃ skipped chars after,
      text = skipped ++ (chars ++ after) ∧ l.Placed (before ++ skipped) chars after := by
  generalize start : Place.origin.afterAll before = here at h
  induction h generalizing before with
  | done _ =>
    intro l member other
    simp_all
  | @token here last gap chars rest c token ls length read _ ih =>
    subst start
    -- The gap parts the lexeme from what stands before, and the lexeme parts itself from the rest.
    have spelled := spelling_of_readToken read
    have between := gap_of_gapLength length
    rw [List.drop_left,List.take_left] at between
    have cut := between.parted parted
    have parted : Parted (before ++ (gap ++ c :: chars)) rest := by
      rw [← List.append_assoc]
      exact spelled.parted.append (by simp) _
    intro l member other
    rcases List.mem_cons.mp member with rfl | member
    · refine ⟨gap, c :: chars, rest, by simp, ?_, cut, spelled, ?_⟩
      · simp [Place.afterAll_append]
      · rw [Place.afterAll_append]
        exact ⟨last, c, chars, rfl, read⟩
    · obtain ⟨skipped, chars', after, rfl, placed⟩ :=
        ih parted (Place.afterAll_append _ _ _) l member other
      refine ⟨gap ++ c :: chars ++ skipped, chars', after, by simp, ?_⟩
      rwa [← List.append_assoc before]

theorem placed_of_lexChars {ls : List Lexeme} (h : lexChars text = .ok ls) {l : Lexeme}
    (member : l ∈ ls) (other : l.token ≠ .endOfInput) : ∃ before chars after,
      text = before ++ (chars ++ after) ∧ l.Placed before chars after := by
  have parted : Parted (text.take (interpreterLine text)) (text.drop (interpreterLine text)) := by
    rcases interpreterLine_take text with none | line
    · rw [none]
      nofun
    · exact parted_of_atLineEnd line.ends
  obtain ⟨skipped, chars, after, rest, placed⟩ :=
    (lexed_of_lexemes h).placed parted l member other
  refine ⟨_, chars, after, ?_, placed⟩
  rw [List.append_assoc,← rest,List.take_append_drop]

end CodeCompletion
