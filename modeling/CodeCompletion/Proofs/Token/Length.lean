import CodeCompletion.Token.Stream
import CodeCompletion.Proofs.Token.Gap

/-! How far templates and regular expressions go. Their readers put a text together from the pieces
they come across: single characters, escapes, strings and whole templates. All of it is the text
that was read, so where such a literal is cut off tells all about it. -/
namespace CodeCompletion

open SyntaxError.Reason

variable {text : List Char} {raw : Reading (List Char)}

section Length

/-- Length of a template after its opening backtick, the closing one included. `start` is
where the template starts, `here` where `text` does, and `depth` counts the braces open in
the current substitution, 0 outside of one. -/
def templateBody (start here : Place) (depth : Nat) (text : List Char) :
    Except SyntaxError Nat :=
  match text with
  | [] => .error ⟨.unterminatedTemplate, start.position⟩
  | c :: rest =>
    if depth = 0 then
      if c = '\x60' then .ok 1
      else if c = '\\' then
        match rest with
        | [] => .error ⟨.unterminatedTemplate, start.position⟩
        | next :: rest =>
          (templateBody start ((here.after c).after next) 0 rest).map (2 + ·)
      else if c = '$' ∧ rest.head? = some '\x7b' then
        (templateBody start ((here.after c).after '\x7b') 1 (rest.drop 1)).map (2 + ·)
      else (templateBody start (here.after c) 0 rest).map (1 + ·)
    else if c = '\x60' then
      match templateBody here (here.after c) 0 rest with
      | .error e => .error e
      | .ok inner =>
        let here := (here.after c).afterAll (rest.take inner)
        (templateBody start here depth (rest.drop inner)).map (1 + inner + ·)
    else if c = '"' ∨ c = '\'' then
      match stringBody c rest with
      | .error reason => .error ⟨reason, here.position⟩
      | .ok body =>
        let here := (here.after c).afterAll (rest.take body.size)
        (templateBody start here depth (rest.drop body.size)).map (1 + body.size + ·)
    else
      let depth := if c = '\x7b' then depth + 1 else if c = '\x7d' then depth - 1 else depth
      (templateBody start (here.after c) depth rest).map (1 + ·)
termination_by text.length
decreasing_by all_goals simp only [List.length_cons,List.length_drop]; omega

def regexBody (inClass : Bool) : List Char → Except SyntaxError.Reason Nat
  | [] => .error unterminatedRegex
  | c :: rest =>
    if c = '\n' then .error unterminatedRegex
    else if c = '\\' then
      match rest with
      | [] => .error unterminatedRegex
      | next :: rest =>
        if next = '\n' then .error unterminatedRegex
        else (regexBody inClass rest).map (2 + ·)
    else if c = '/' ∧ inClass = false then .ok 1
    else
      let inClass := if c = '[' then true else if c = ']' then false else inClass
      (regexBody inClass rest).map (1 + ·)

/-- What is put in front of a text adds to its length. -/
theorem size_map {ε : Type} (n : Nat) {f : Reading (List Char) → Reading (List Char)}
    (added : ∀ later, (f later).size = n + later.size) (x : Except ε (Reading (List Char))) :
    (x.map f).map (·.size) = (x.map (·.size)).map (n + ·) := by
  cases x with
  | error e => rfl
  | ok later => exact congrArg Except.ok (added later)

theorem size_templateText (start here : Place) (depth : Nat) (text : List Char) :
    (templateText start here depth text).map (·.size) = templateBody start here depth text := by
  fun_induction templateText start here depth text with
  | case1 => simp [templateBody,Except.map]
  | case2 =>
    rw [templateBody.eq_def]
    rfl
  | case3 => simp [templateBody,Except.map]
  | case4 start here next rest _ ih =>
    rw [templateBody.eq_def,size_map 2 fun _ => rfl,ih]
    simp
  | case5 start here c rest notTick notEscape opens ih =>
    rw [templateBody.eq_def,size_map 2 fun _ => rfl,ih]
    simp only [if_true,if_neg notTick,if_neg notEscape,if_pos opens]
  | case6 start here c rest notTick notEscape plain ih =>
    rw [templateBody.eq_def,size_map 1 fun _ => rfl,ih]
    simp only [notTick,notEscape,plain,if_true,if_false]
  | case7 =>
    rename_i inside _ failed ih
    rw [failed] at ih
    rw [templateBody.eq_def]
    simp [inside,← ih,Except.map]
  | case8 =>
    rename_i inside inner nested _ ihInner ih
    rw [nested] at ihInner
    rw [templateBody.eq_def,size_map (1 + inner.size) fun _ => rfl,ih]
    simp only [inside,if_false,if_true,← ihInner]
    rfl
  | case9 =>
    rename_i inside notTick isQuote reason failed
    rw [templateBody.eq_def]
    simp [inside,notTick,isQuote,failed,Except.map]
  | case10 =>
    rename_i inside notTick isQuote body string _ ih
    rw [templateBody.eq_def,size_map (1 + body.size) fun _ => rfl,ih]
    simp only [inside,notTick,isQuote,string,if_true,if_false]
    rfl
  | case11 =>
    rename_i inside notTick notQuote _ ih
    rw [templateBody.eq_def,size_map 1 fun _ => rfl,ih]
    simp only [inside,notTick,notQuote,if_false]
    rfl

theorem size_regexPattern (inClass : Bool) (text : List Char) :
    (regexPattern inClass text).map (·.size) = regexBody inClass text := by
  fun_induction regexPattern inClass text with
  | case1 => rfl
  | case2 =>
    rw [regexBody.eq_def]
    rfl
  | case3 => rfl
  | case4 => rfl
  | case5 =>
    rename_i notFeed _ ih
    rw [size_map 2 fun _ => rfl,ih]
    simp [regexBody,notFeed]
  | case6 =>
    rename_i notFeed notEscape closes
    rw [regexBody.eq_def]
    simp [closes,Except.map]
  | case7 =>
    rename_i notFeed notEscape opens _ ih
    rw [regexBody.eq_def,size_map 1 fun _ => rfl,ih]
    simp only [notFeed,notEscape,opens,if_false]
    rfl

end Length

/-- What is put together is the text up to `stop`, which is counted. -/
def UpTo (stop : Char) (text : List Char) (raw : Reading (List Char)) : Prop :=
  ∃ rest, text = raw.value ++ stop :: rest ∧ raw.size = raw.value.length + 1

namespace UpTo

variable {stop : Char}

theorem take (closed : UpTo stop text raw) : text.take raw.size = raw.value ++ [stop] := by
  obtain ⟨rest, rfl, size⟩ := closed
  rw [size,List.append_cons]
  exact List.take_left' (by simp)

/-- What was read before the rest is kept as it stands. -/
theorem behind {n : Nat} (closed : UpTo stop (text.drop n) raw) :
    UpTo stop text ⟨text.take n ++ raw.value, n + raw.size⟩ := by
  obtain ⟨rest, split, size⟩ := closed
  have le : n ≤ text.length := by
    by_contra past
    rw [List.drop_eq_nil_of_le (by omega)] at split
    simp at split
  refine ⟨rest, ?_, ?_⟩
  · rw [List.append_assoc,← split,List.take_append_drop]
  · simp [size,le,Nat.add_assoc]

end UpTo

/-- A template is the text up to its backtick. -/
theorem upTo_templateText {start here : Place} {depth : Nat}
    (h : templateText start here depth text = .ok raw) : UpTo '\x60' text raw := by
  fun_induction templateText start here depth text generalizing raw with
  | case1 => cases h
  | case2 start here rest =>
    cases h
    exact ⟨rest, rfl, rfl⟩
  | case3 => cases h
  | case4 start here next rest _ ih =>
    obtain ⟨later, read, rfl⟩ := map_eq_ok.mp h
    have past : UpTo '\x60' (('\\' :: next :: rest).drop 2) later := ih read
    exact past.behind
  | case5 start here c rest _ _ opens ih =>
    obtain ⟨later, read, rfl⟩ := map_eq_ok.mp h
    obtain ⟨rfl, brace⟩ := opens
    obtain ⟨rest, rfl⟩ := List.head?_eq_some_iff.mp brace
    have past : UpTo '\x60' (('$' :: '\x7b' :: rest).drop 2) later := ih read
    exact past.behind
  | case6 start here c rest _ _ _ ih =>
    obtain ⟨later, read, rfl⟩ := map_eq_ok.mp h
    have past : UpTo '\x60' ((c :: rest).drop 1) later := ih read
    exact past.behind
  | case7 => cases h
  | case8 =>
    rename_i rest _ inner nested _ ihInner ih
    obtain ⟨later, read, rfl⟩ := map_eq_ok.mp h
    -- the backticks that are put around the inner template are those it was read with
    have inside : ('\x60' :: rest).take (1 + inner.size) = '\x60' :: (inner.value ++ ['\x60']) := by
      rw [Nat.add_comm,List.take_succ_cons,(ihInner nested).take]
    have past : UpTo '\x60' (('\x60' :: rest).drop (1 + inner.size)) later := by
      rw [Nat.add_comm,List.drop_succ_cons]
      exact ih read
    have whole := past.behind
    rw [inside] at whole
    simpa using whole
  | case9 => cases h
  | case10 =>
    rename_i c rest _ _ _ body _ _ ih
    obtain ⟨later, read, rfl⟩ := map_eq_ok.mp h
    have past : UpTo '\x60' ((c :: rest).drop (1 + body.size)) later := by
      rw [Nat.add_comm,List.drop_succ_cons]
      exact ih read
    have whole := past.behind
    rwa [Nat.add_comm 1 body.size,List.take_succ_cons,Nat.add_comm body.size] at whole
  | case11 =>
    rename_i c rest _ _ _ _ ih
    obtain ⟨later, read, rfl⟩ := map_eq_ok.mp h
    have past : UpTo '\x60' ((c :: rest).drop 1) later := ih read
    exact past.behind

/-- A pattern is the text up to its closing slash. -/
theorem upTo_regexPattern {inClass : Bool} (h : regexPattern inClass text = .ok raw) :
    UpTo '/' text raw := by
  fun_induction regexPattern inClass text generalizing raw with
  | case1 => cases h
  | case2 => cases h
  | case3 => cases h
  | case4 => cases h
  | case5 =>
    rename_i inClass next rest _ _ ih
    obtain ⟨later, read, rfl⟩ := map_eq_ok.mp h
    have past : UpTo '/' (('\\' :: next :: rest).drop 2) later := ih read
    exact past.behind
  | case6 =>
    rename_i rest _ _ closes
    cases h
    obtain ⟨rfl, -⟩ := closes
    exact ⟨rest, rfl, rfl⟩
  | case7 =>
    rename_i c rest _ _ _ _ ih
    obtain ⟨later, read, rfl⟩ := map_eq_ok.mp h
    have past : UpTo '/' ((c :: rest).drop 1) later := ih read
    exact past.behind

section Literals

/-- The text of a literal follows from its length. -/
theorem eq_map_size {ε : Type} {stop : Char} {x : Except ε (Reading (List Char))}
    (closed : ∀ raw, x = .ok raw → UpTo stop text raw) :
    x = (x.map (·.size)).map fun size => ⟨text.take (size - 1), size⟩ := by
  cases x with
  | error e => rfl
  | ok raw =>
    obtain ⟨rest, rfl, size⟩ := closed raw rfl
    have value : (raw.value ++ stop :: rest).take (raw.size - 1) = raw.value := by simp [size]
    show Except.ok raw = Except.ok ⟨(raw.value ++ stop :: rest).take (raw.size - 1), raw.size⟩
    rw [value]

theorem templateLiteral_cons (start : Place) (tick : Char) (rest : List Char) :
    templateLiteral start (tick :: rest) =
      (templateBody start (start.after tick) 0 rest).map fun size =>
        ⟨String.ofList (rest.take (size - 1)), 1 + size⟩ := by
  rw [templateLiteral,eq_map_size fun _ => upTo_templateText,size_templateText]
  cases templateBody start (start.after tick) 0 rest <;> rfl

theorem regexLiteral_cons (slash : Char) (rest : List Char) :
    regexLiteral (slash :: rest) =
      (regexBody false rest).map fun size =>
        ⟨(String.ofList (rest.take (size - 1)),
          String.ofList ((rest.drop size).takeWhile isNameContinue)),
          1 + size + runLength isNameContinue (rest.drop size)⟩ := by
  rw [regexLiteral,eq_map_size fun _ => upTo_regexPattern,size_regexPattern]
  cases regexBody false rest <;> rfl

end Literals

end CodeCompletion
