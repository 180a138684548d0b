import CodeCompletion.Caret.Region
import CodeCompletion.Proofs.Token.Truncation
import Mathlib.Data.List.Infix

/-! The scan of regions along tokens and gaps. From code, it crosses a token whole and is in
code again, and no line that starts within the token starts in code for it. Of a gap it
knows the same, except that a line of a gap may start in code: the rest of the gap is a gap
then. -/
namespace CodeCompletion

def Token.isRegex : Token → Bool
  | regex _ _ => true
  | _ => false

def Token.isTemplate : Token → Bool
  | template _ => true
  | _ => false

namespace RegionState

variable {s : RegionState} {text rest : List Char} {c : Char} {stack : List Nat}

def scan (s : RegionState) : Nat → List Char → RegionState
  | 0, _ | _ + 1, [] => s
  | n + 1, c :: rest => (s.read c rest.head?).scan n rest

@[simp] theorem scan_zero (s : RegionState) (text : List Char) : s.scan 0 text = s := by
  cases text <;> rfl

@[simp] theorem scan_nil (s : RegionState) (n : Nat) : s.scan n [] = s := by
  cases n <;> rfl

@[simp] theorem scan_succ (s : RegionState) (n : Nat) (c : Char) (rest : List Char) :
    s.scan (n + 1) (c :: rest) = (s.read c rest.head?).scan n rest := rfl

theorem scan_add (s : RegionState) (a b : Nat) (text : List Char) :
    s.scan (a + b) text = (s.scan a text).scan b (text.drop a) := by
  induction a generalizing s text with
  | zero => simp
  | succ a ih =>
    cases text with
    | nil => simp
    | cons c rest =>
      rw [Nat.add_right_comm,scan_succ,scan_succ,ih]
      rfl

theorem scan_split {whole before : List Char} (cut : whole = before ++ (text ++ rest)) :
    s.scan (before ++ text).length whole =
      (s.scan before.length whole).scan text.length (text ++ rest) := by
  rw [List.length_append,scan_add,cut,List.drop_left]

/-- The scan is in a region, not amid an escape or an opening. -/
@[mk_iff] structure At (s : RegionState) (region : Region) (stack : List Nat) : Prop where
  inRegion : s.region = region
  opened : s.templates = stack
  unescaped : s.escaped = false
  settled : s.skipping = false

instance (s : RegionState) (region : Region) (stack : List Nat) : Decidable (s.At region stack) :=
  decidable_of_iff _ (at_iff s region stack).symm

section Steps

@[simp] theorem at_previous {region : Region} (previous : Option Char) :
    ({ s with previous := previous } : RegionState).At region stack ↔ s.At region stack :=
  ⟨fun ⟨a, b, c, d⟩ => ⟨a, b, c, d⟩, fun ⟨a, b, c, d⟩ => ⟨a, b, c, d⟩⟩

@[simp] theorem at_note {region : Region} (c : Char) :
    (s.note c).At region stack ↔ s.At region stack := by
  unfold note
  split
  · rfl
  · exact ⟨fun ⟨a, b, c, d⟩ => ⟨a, b, c, d⟩, fun ⟨a, b, c, d⟩ => ⟨a, b, c, d⟩⟩

theorem At.endLiteral {region : Region} (h : s.At region stack) : s.endLiteral.At .code stack :=
  ⟨rfl, h.opened, h.unescaped, h.settled⟩

variable (next : Option Char)

theorem At.read_code (h : s.At .code stack) :
    s.read c next = { s.readCode c next with previous := some c } := by
  simp [read,h.inRegion,h.settled]

/-- Outside of templates, braces are like other characters of code. -/
theorem At.read_plain (h : s.At .code []) (plain : c = '\n' ∨ Plain c) :
    (s.read c next).At .code [] := by
  have special : c ∉ ['/', '"', '\'', '\x60'] := by
    obtain rfl | plain := plain
    · decide
    · exact fun member => plain (List.mem_cons_of_mem _ member)
  simp only [List.mem_cons,List.not_mem_nil,or_false,not_or] at special
  obtain ⟨slash, double, single, tick⟩ := special
  rw [h.read_code,at_previous]
  simp only [readCode,slash,double,single,tick,false_and,or_self,if_false,openBrace,h.opened]
  split_ifs <;> simpa using h

/-- A character of a substitution that is none of those that open or close something. -/
theorem At.read_inert (h : s.At .code stack) (plain : Plain c) (opens : c ≠ '\x7b')
    (closes : c ≠ '\x7d') : (s.read c next).At .code stack := by
  simp only [Plain,List.mem_cons,List.not_mem_nil,or_false,not_or] at plain
  obtain ⟨-, slash, double, single, tick⟩ := plain
  rw [h.read_code,at_previous]
  simpa [readCode,slash,double,single,tick,opens,closes] using h

theorem At.read_quote (h : s.At .code stack) (quote : c = '"' ∨ c = '\'') :
    (s.read c next).At (.quoted c) stack := by
  have slash : c ≠ '/' := by obtain rfl | rfl := quote <;> decide
  rw [h.read_code,at_previous]
  simp only [readCode,slash,false_and,if_false,quote.symm,if_true]
  exact ⟨rfl, h.opened, h.unescaped, h.settled⟩

theorem At.read_tick (h : s.At .code stack) : (s.read '\x60' next).At .template (0 :: stack) := by
  rw [h.read_code,at_previous]
  refine ⟨rfl, ?_, h.unescaped, h.settled⟩
  simp [readCode,h.opened]

theorem At.read_openBrace {depth : Nat} {outer : List Nat} (h : s.At .code ((depth + 1) :: outer)) :
    (s.read '\x7b' next).At .code ((depth + 2) :: outer) := by
  rw [h.read_code,at_previous]
  simp only [readCode,openBrace,h.opened]
  simp only [Char.reduceEq,false_and,or_self,if_false,if_true,Nat.zero_lt_succ,at_note]
  exact ⟨h.inRegion, rfl, h.unescaped, h.settled⟩

theorem At.read_closeBrace {depth : Nat} {outer : List Nat}
    (h : s.At .code ((depth + 1) :: outer)) :
    (s.read '\x7d' next).At (if depth = 0 then .template else .code) (depth :: outer) := by
  rw [h.read_code,at_previous]
  simp only [readCode,h.opened]
  simp only [Char.reduceEq,false_and,or_self,if_false,if_true]
  cases depth with
  | zero => exact ⟨rfl, rfl, h.unescaped, h.settled⟩
  | succ depth =>
    simp only [at_note]
    exact ⟨h.inRegion, rfl, h.unescaped, h.settled⟩

/-- A slash that starts no comment. -/
theorem At.read_slash (h : s.At .code stack)
    (solid : next.any (fun d => d = '/' || d = '*') = false) :
    (s.read '/' next).At (if s.allowsRegex then .regex false else .code) stack := by
  have line : next ≠ some '/' := by rintro rfl; simp at solid
  have block : next ≠ some '*' := by rintro rfl; simp at solid
  rw [h.read_code,at_previous]
  simp only [readCode,line,block,and_false,if_false,true_and]
  split
  · exact ⟨rfl, h.opened, h.unescaped, h.settled⟩
  · simpa using h

theorem isBlank_slash : isBlank '/' = false := by decide

/-- A slash that opens nothing. -/
theorem At.read_slash_code (h : s.At .code stack) (stays : (s.read '/' next).region = .code) :
    (s.read '/' next).At .code stack := by
  have solid : next.any (fun d => d = '/' || d = '*') = false := by
    rw [h.read_code] at stays
    cases next with
    | none => rfl
    | some d =>
      have line : d ≠ '/' := by
        rintro rfl
        simp [readCode,note,isBlank_slash] at stays
      have block : d ≠ '*' := by
        rintro rfl
        simp [readCode] at stays
      simp [line,block]
  have reads := h.read_slash next solid
  split at reads
  · exact absurd (reads.inRegion.symm.trans stays) (by simp)
  · exact reads

/-- A character of a substitution that starts no literal and no comment: only the braces count. -/
theorem At.read_substituted {depth : Nat} {outer : List Nat} (h : s.At .code ((depth + 1) :: outer))
    (feed : c ≠ '\n') (tick : c ≠ '\x60') (quote : ¬ (c = '"' ∨ c = '\''))
    (slash : c = '/' → (s.read c next).region = .code) :
    let inner := if c = '\x7b' then depth + 2 else if c = '\x7d' then depth else depth + 1
    (s.read c next).At (if inner = 0 then .template else .code) (inner :: outer) := by
  by_cases opens : c = '\x7b'
  · subst opens
    exact h.read_openBrace next
  by_cases closes : c = '\x7d'
  · subst closes
    exact h.read_closeBrace next
  simp only [opens,closes,if_false,Nat.succ_ne_zero]
  by_cases isSlash : c = '/'
  · subst isSlash
    exact h.read_slash_code next (slash rfl)
  · obtain ⟨double, single⟩ := not_or.mp quote
    have plain : Plain c := by simp [Plain,feed,isSlash,double,single,tick]
    exact h.read_inert next plain opens closes

def Escapable : Region → Prop
  | .quoted _ | .template | .regex _ => True
  | _ => False

theorem Escapable.ne_code {region : Region} (h : Escapable region) : region ≠ .code := by
  rintro rfl
  exact h

theorem At.read_backslash {region : Region} (escapes : Escapable region) (h : s.At region stack) :
    (s.read '\\' next).region = region ∧
      ∀ d next', ((s.read '\\' next).read d next').At region stack := by
  have reads : s.read '\\' next = { s with escaped := true, previous := some '\\' } := by
    cases region <;> first | exact escapes.elim |
      simp [read,h.inRegion,h.settled,readEscapable,h.unescaped]
  rw [reads]
  refine ⟨h.inRegion, fun d next' => ?_⟩
  have reads' : RegionState.read { s with escaped := true, previous := some '\\' } d next' =
      { s with escaped := false, previous := some d } := by
    cases region <;> first | exact escapes.elim |
      simp [read,h.inRegion,h.settled,readEscapable]
  rw [reads']
  exact ⟨h.inRegion, h.opened, rfl, h.settled⟩

theorem At.read_quoted {quote : Char} (h : s.At (.quoted quote) stack) (escape : c ≠ '\\')
    (feed : c ≠ '\n') :
    (s.read c next).At (if c = quote then .code else .quoted quote) stack := by
  have reads : s.read c next =
      { (if c = quote then s.endLiteral else s) with previous := some c } := by
    simp [read,h.inRegion,h.settled,readEscapable,h.unescaped,escape,feed]
  rw [reads,at_previous]
  split
  · exact h.endLiteral
  · exact h

theorem At.read_template {outer : List Nat} (h : s.At .template (0 :: outer)) (escape : c ≠ '\\') :
    s.read c next = { s.readTemplate c next with previous := some c } := by
  simp [read,h.inRegion,h.settled,readEscapable,h.unescaped,escape]

theorem At.read_closingTick {outer : List Nat} (h : s.At .template (0 :: outer)) :
    (s.read '\x60' next).At .code outer := by
  rw [h.read_template _ (by decide),at_previous]
  exact ⟨rfl, by simp [readTemplate,RegionState.endLiteral,h.opened], h.unescaped, h.settled⟩

theorem At.read_substitution {outer : List Nat} (h : s.At .template (0 :: outer)) :
    ((s.read '$' (some '\x7b')).read '\x7b' next).At .code (1 :: outer) := by
  rw [h.read_template _ (by decide)]
  refine ⟨rfl, ?_, h.unescaped, rfl⟩
  simp [readTemplate,read,h.opened]

theorem At.read_templateText {outer : List Nat} (h : s.At .template (0 :: outer))
    (escape : c ≠ '\\') (tick : c ≠ '\x60') (plain : ¬ (c = '$' ∧ next = some '\x7b')) :
    (s.read c next).At .template (0 :: outer) := by
  rw [h.read_template next escape,at_previous]
  simpa [readTemplate,tick,plain] using h

theorem At.read_regex {inClass : Bool} (h : s.At (.regex inClass) stack) (escape : c ≠ '\\')
    (feed : c ≠ '\n') : (s.read c next).At
      (if c = '/' ∧ inClass = false then .code
        else .regex (if c = '[' then true else if c = ']' then false else inClass)) stack := by
  have reads : s.read c next = { s.readRegex inClass c with previous := some c } := by
    simp [read,h.inRegion,h.settled,readEscapable,h.unescaped,escape]
  rw [reads,at_previous]
  simp only [readRegex,feed,if_false]
  have moved (region : Region) : ({ s with region := region } : RegionState).At region stack :=
    ⟨rfl, h.opened, h.unescaped, h.settled⟩
  cases inClass with
  | true =>
    by_cases opens : c = '['
    · subst opens
      simpa using h
    by_cases closes : c = ']'
    · subst closes
      exact moved _
    · simpa [opens,closes] using h
  | false =>
    by_cases opens : c = '['
    · subst opens
      exact moved _
    by_cases ends : c = '/'
    · subst ends
      exact h.endLiteral
    · simpa [opens,ends] using h

end Steps

section Passage

/-- From `s`, the first characters of a text lead to a state of `P`, and no line that starts
behind one of them starts in code. This is said of the first `bound` characters only: of a text
that goes on beyond them, that no line starts in code before. -/
structure Leads (s : RegionState) (bound size : Nat) (text : List Char) (P : RegionState → Prop) :
    Prop where
  arrives : size ≤ bound → P (s.scan size text)
  quiet : ∀ i < size, i < bound → text[i]? = some '\n' → (s.scan (i + 1) text).region ≠ .code

variable {P Q : RegionState → Prop} {bound size : Nat}

theorem Leads.nil (h : P s) : s.Leads bound 0 text P :=
  ⟨fun _ => by simpa using h, fun i lt => absurd lt (Nat.not_lt_zero i)⟩

theorem Leads.ofNil (h : P s) : s.Leads bound size [] P :=
  ⟨fun _ => by simpa using h, by simp⟩

theorem Leads.beyond (positive : 0 < size) : s.Leads 0 size text P :=
  ⟨fun le => absurd positive (Nat.not_lt_of_le le), fun i _ lt => absurd lt (Nat.not_lt_zero i)⟩

theorem Leads.cons (quiet : c = '\n' → (s.read c rest.head?).region ≠ .code)
    (later : (s.read c rest.head?).Leads (bound - 1) size rest P) :
    s.Leads bound (1 + size) (c :: rest) P := by
  rw [Nat.add_comm]
  refine ⟨fun le => later.arrives (by omega), fun i lt within feed => ?_⟩
  cases i with
  | zero =>
    rw [scan_succ,scan_zero]
    exact quiet (by simpa using feed)
  | succ i => exact later.quiet i (by omega) (by omega) (by simpa using feed)

theorem Leads.add {a b : Nat} (first : s.Leads bound a text Q)
    (later : a ≤ bound → Q (s.scan a text) → (s.scan a text).Leads (bound - a) b (text.drop a) P) :
    s.Leads bound (a + b) text P := by
  constructor
  · intro le
    have fits : a ≤ bound := by omega
    rw [scan_add]
    exact (later fits (first.arrives fits)).arrives (by omega)
  · intro i lt within feed
    by_cases inside : i < a
    · exact first.quiet i inside within feed
    · obtain ⟨j, rfl⟩ := Nat.exists_eq_add_of_le (Nat.le_of_not_lt inside)
      have fits : a ≤ bound := by omega
      rw [Nat.add_assoc,scan_add]
      exact (later fits (first.arrives fits)).quiet j (by omega) (by omega)
        (by rwa [List.getElem?_drop])

/-- A line that starts in code starts behind what was crossed. -/
theorem Leads.past {i : Nat} (first : s.Leads bound size text Q) (within : i < bound)
    (feed : text[i]? = some '\n') (code : (s.scan (i + 1) text).region = .code) :
    ∃ j, i = size + j ∧ (text.drop size)[j]? = some '\n' ∧
      ((s.scan size text).scan (j + 1) (text.drop size)).region = .code := by
  have outside : size ≤ i := by
    by_contra inside
    exact first.quiet i (by omega) within feed code
  obtain ⟨j, rfl⟩ := Nat.exists_eq_add_of_le outside
  rw [Nat.add_assoc,scan_add] at code
  exact ⟨j, rfl, by rwa [List.getElem?_drop], code⟩

theorem Leads.mono (h : s.Leads bound size text P) (weaker : ∀ s, P s → Q s) :
    s.Leads bound size text Q :=
  ⟨fun le => weaker _ (h.arrives le), h.quiet⟩

/-- A character that brings the scan to a region, and no line feed to code. -/
theorem Leads.cons_at {region : Region} (reads : (s.read c rest.head?).At region stack)
    (quiet : c = '\n' → region ≠ .code)
    (later : (s.read c rest.head?).Leads (bound - 1) size rest P) :
    s.Leads bound (1 + size) (c :: rest) P :=
  .cons (fun feed => reads.inRegion.symm ▸ quiet feed) later

theorem Leads.single {region : Region} (reads : (s.read c rest.head?).At region stack)
    (quiet : c = '\n' → region ≠ .code) : s.Leads bound 1 (c :: rest) (At · region stack) := by
  show s.Leads bound (1 + 0) (c :: rest) _
  exact .cons_at reads quiet (.nil reads)

/-- A backslash and the character it takes with it. -/
theorem Leads.escape {region : Region} {d : Char} (h : s.At region stack)
    (escapes : Escapable region)
    (later : ∀ s', s'.At region stack → s' = s.scan 2 ('\\' :: d :: rest) →
      s'.Leads (bound - 2) size rest P) :
    s.Leads bound (2 + size) ('\\' :: d :: rest) P := by
  obtain ⟨region', reads⟩ := h.read_backslash (d :: rest).head? escapes
  have second := reads d rest.head?
  rw [show 2 + size = 1 + (1 + size) by omega]
  refine .cons (by simp) (.cons_at second (fun _ => escapes.ne_code) ?_)
  rw [Nat.sub_sub]
  exact later _ second rfl

/-- A run of characters each of which leaves the scan where it is. -/
theorem leads_run {region : Region} {p : Char → Prop} (feed : ¬ p '\n')
    (step : ∀ (s : RegionState) c next, s.At region stack → p c → (s.read c next).At region stack)
    (h : s.At region stack) (all : ∀ c ∈ text.take size, p c) :
    s.Leads bound size text (At · region stack) := by
  induction size generalizing s bound text with
  | zero => exact .nil h
  | succ size ih =>
    cases text with
    | nil => exact .ofNil h
    | cons c rest =>
      have first : p c := all c (by simp)
      have reads := step s c rest.head? h first
      rw [Nat.add_comm]
      refine .cons_at reads (fun same => absurd (same ▸ first) feed) (ih reads ?_)
      exact fun d member => all d (by simp [member])

theorem leads_plain (h : s.At .code []) (all : AllPlain size text) :
    s.Leads bound size text (At · .code []) :=
  leads_run (by decide) (fun _ _ next h plain => h.read_plain next (Or.inr plain)) h all

end Passage

section Literals

variable {bound : Nat}

def Inert (c : Char) : Prop := c ∉ ['\n', '\\', '"', '\'']

theorem digits_of_digitsValue? {base : Nat} {digits : List Char} {n : Nat}
    (h : digitsValue? base digits = some n) : ∀ c ∈ digits, (digitValue? base c).isSome = true := by
  suffices ∀ start, digits.foldlM (fun n c => (digitValue? base c).map (n * base + ·)) start = some n →
      ∀ c ∈ digits, (digitValue? base c).isSome = true from this 0 h
  clear h
  induction digits with
  | nil => simp
  | cons d digits ih =>
    intro start h c member
    rw [List.foldlM_cons,Option.bind_eq_bind,Option.bind_eq_some_iff] at h
    obtain ⟨m, first, later⟩ := h
    obtain ⟨value, digit, -⟩ := Option.map_eq_some_iff.mp first
    obtain rfl | member := List.mem_cons.mp member
    · rw [digit]
      rfl
    · exact ih m later c member

theorem inert_of_digit {c : Char} (digit : (digitValue? 16 c).isSome = true) : Inert c := by
  intro special
  simp only [List.mem_cons,List.not_mem_nil,or_false] at special
  obtain rfl | rfl | rfl | rfl := special <;> simp [digitValue?,hexValue?] at digit

theorem inert_of_hexCharacter {count : Nat} {c : Char} (h : hexCharacter count text = .ok c) :
    ∀ d ∈ text.take count, Inert d := by
  simp only [hexCharacter] at h
  split at h
  · split at h
    next value => exact fun d member => inert_of_digit (digits_of_digitsValue? value d member)
    next => cases h
  · cases h

theorem inert_of_codeInBraces? {digits : List Char} {n : Nat} (h : codeInBraces? digits = some n) :
    ∀ d ∈ digits, Inert d := by
  simp only [codeInBraces?] at h
  split at h
  next rest =>
    split at h
    · cases h
    · intro d member
      obtain rfl | member := List.mem_cons.mp member
      · simp [Inert]
      · exact inert_of_digit (digits_of_digitsValue? h d member)
  next =>
    split at h
    · cases h
    · exact fun d member => inert_of_digit (digits_of_digitsValue? h d member)

theorem take_past_takeWhile {stop : Char}
    (closed : (text.takeWhile (· ≠ stop)).length < text.length) :
    text.take ((text.takeWhile (· ≠ stop)).length + 1) = text.takeWhile (· ≠ stop) ++ [stop] := by
  have split := List.takeWhile_append_dropWhile (p := (· ≠ stop)) (l := text)
  cases rest : text.dropWhile (· ≠ stop) with
  | nil =>
    rw [rest,List.append_nil] at split
    rw [split] at closed
    exact absurd closed (Nat.lt_irrefl _)
  | cons c rest' =>
    have stops := List.head?_dropWhile_not (fun c => decide (c ≠ stop)) text
    rw [rest] at stops split
    obtain rfl : c = stop := by simpa using stops
    have length : (text.takeWhile (· ≠ c) ++ c :: rest').take ((text.takeWhile (· ≠ c)).length + 1) =
        text.takeWhile (· ≠ c) ++ [c] := List.take_length_add_append 1
    rwa [split] at length

/-- An escape takes one character and perhaps the digits of a code; only a carriage return
takes a line feed with it. -/
theorem escape_chars {e : Reading (List Char)} (h : escape text = .ok e) :
    ∃ d rest size, text = d :: rest ∧ e.size = 1 + size ∧
      ((∀ x ∈ rest.take size, Inert x) ∨ size = 1 ∧ ∃ tail, d = '\r' ∧ rest = '\n' :: tail) := by
  unfold escape at h
  split at h
  case h_1 => cases h
  case h_8 =>
    split at h <;> cases h <;> exact ⟨_, _, 0, rfl, rfl, Or.inl (by simp)⟩
  case h_10 =>
    cases h
    exact ⟨_, _, 1, rfl, rfl, Or.inr ⟨rfl, _, rfl, rfl⟩⟩
  case h_12 =>
    obtain ⟨c, read, rfl⟩ := map_eq_ok.mp h
    exact ⟨_, _, 2, rfl, rfl, Or.inl (inert_of_hexCharacter read)⟩
  case h_13 rest =>
    simp only at h
    split at h
    next closed =>
      split at h
      next c code =>
        cases h
        obtain ⟨n, value, -⟩ := Option.bind_eq_some_iff.mp code
        refine ⟨_, _, (rest.takeWhile (· ≠ '\x7d')).length + 2, rfl, by simp only; omega, Or.inl ?_⟩
        intro x member
        rw [List.take_succ_cons,take_past_takeWhile closed] at member
        simp only [List.mem_cons,List.mem_append,List.not_mem_nil,or_false] at member
        obtain rfl | member | rfl := member
        · simp [Inert]
        · exact inert_of_codeInBraces? value x member
        · simp [Inert]
      next => cases h
    next => cases h
  case h_14 =>
    obtain ⟨c, read, rfl⟩ := map_eq_ok.mp h
    exact ⟨_, _, 4, rfl, rfl, Or.inl (inert_of_hexCharacter read)⟩
  all_goals
    cases h
    exact ⟨_, _, 0, rfl, rfl, Or.inl (by simp)⟩

/-- Nowhere in the first characters is a line continued over a carriage return and a line feed. -/
def Unbroken (bound : Nat) (text : List Char) : Prop := ¬ ['\\', '\r', '\n'] <:+: text.take bound

theorem Unbroken.drop (h : Unbroken bound text) (n : Nat) : Unbroken (bound - n) (text.drop n) := by
  intro inside
  rw [← List.drop_take] at inside
  exact h (inside.trans (List.drop_suffix n _).isInfix)

theorem Unbroken.le (h : Unbroken bound ('\\' :: '\r' :: '\n' :: rest)) : bound ≤ 2 := by
  by_contra more
  obtain ⟨n, rfl⟩ := Nat.exists_eq_add_of_le' (Nat.lt_of_not_le more)
  exact h ⟨[], rest.take n, rfl⟩

theorem leads_stringBody {quote : Char} {b : Reading (List Char)}
    (read : stringBody quote text = .ok b) (isQuote : quote = '"' ∨ quote = '\'')
    (unbroken : Unbroken bound text) (h : s.At (.quoted quote) stack) :
    s.Leads bound b.size text (At · .code stack) := by
  fun_induction stringBody quote text generalizing b s bound with
  | case1 | case2 | case4 | case5 | case7 => cases read
  | case3 rest notFeed =>
    cases read
    have reads := h.read_quoted (c := quote) rest.head?
      (by obtain rfl | rfl := isQuote <;> decide) notFeed
    rw [if_pos rfl] at reads
    exact .single reads fun feed => absurd feed notFeed
  | case6 rest e escaped body later notFeed notQuote ih =>
    cases read
    obtain ⟨d, rest, size, rfl, taken, kind⟩ := escape_chars escaped
    rw [show 1 + e.size + body.size = 2 + (size + body.size) by omega]
    refine .escape h trivial fun s' at_ _ => ?_
    obtain inert | ⟨rfl, tail, rfl, rfl⟩ := kind
    · have drops : (d :: rest).drop e.size = rest.drop size := by
        rw [taken,Nat.add_comm]
        rfl
      rw [drops] at ih later
      have digits : s'.Leads (bound - 2) size rest (At · (.quoted quote) stack) := by
        refine leads_run (p := Inert) (by simp [Inert]) (fun s c next h inert => ?_) at_ inert
        have reads := h.read_quoted (c := c) next (fun same => inert (by simp [same]))
          (fun same => inert (by simp [same]))
        rwa [if_neg] at reads
        rintro rfl
        exact inert (by obtain rfl | rfl := isQuote <;> simp)
      exact digits.add fun _ at_ => ih later ((unbroken.drop 2).drop size) at_
    · -- The scan would leave the string with this line feed, which is beyond the bound.
      rw [Nat.sub_eq_zero_of_le unbroken.le]
      exact .beyond (by omega)
  | case8 c rest notFeed notQuote plain body later ih =>
    cases read
    have reads := h.read_quoted rest.head? plain notFeed
    rw [if_neg notQuote] at reads
    exact .cons_at reads (fun feed => absurd feed notFeed) (ih later (unbroken.drop 1) reads)

theorem leads_regexBody {inClass : Bool} {size : Nat} (read : regexBody inClass text = .ok size)
    (h : s.At (.regex inClass) stack) : s.Leads bound size text (At · .code stack) := by
  fun_induction regexBody inClass text generalizing size s bound with
  | case1 | case2 | case3 | case4 => cases read
  | case5 =>
    rename_i ih
    obtain ⟨n, later, rfl⟩ := map_eq_ok.mp read
    exact .escape h trivial fun s' at_ _ => ih later at_
  | case6 =>
    rename_i rest notFeed notEscape closes
    cases read
    have reads := h.read_regex rest.head? notEscape notFeed
    rw [if_pos closes] at reads
    exact .single reads fun feed => absurd feed notFeed
  | case7 =>
    rename_i rest notFeed notEscape opens _ ih
    obtain ⟨n, later, rfl⟩ := map_eq_ok.mp read
    have reads := h.read_regex rest.head? notEscape notFeed
    rw [if_neg opens] at reads
    exact .cons_at reads (fun feed => absurd feed notFeed) (ih later reads)

/-- If the scan is in code before a character of a text, then this one neither ends a line nor is
a slash that opens something. -/
def CalmAt (s : RegionState) (text : List Char) (i : Nat) : Prop :=
  (s.scan i text).region = .code →
    text[i]? ≠ some '\n' ∧ (text[i]? = some '/' → (s.scan (i + 1) text).region = .code)

instance (s : RegionState) (text : List Char) (i : Nat) : Decidable (s.CalmAt text i) :=
  inferInstanceAs (Decidable (_ → _))

def Calm (s : RegionState) (bound size : Nat) (text : List Char) : Prop :=
  ∀ i < size, i < bound → s.CalmAt text i

theorem Calm.head {size : Nat} (h : s.Calm bound (1 + size) (c :: rest)) (within : 0 < bound)
    (code : s.region = .code) :
    c ≠ '\n' ∧ (c = '/' → (s.read c rest.head?).region = .code) := by
  have first := h 0 (by omega) within
  simpa [CalmAt,code] using first

theorem calmAt_add {a i : Nat} :
    s.CalmAt text (a + i) ↔ (s.scan a text).CalmAt (text.drop a) i := by
  rw [CalmAt,CalmAt,Nat.add_assoc,scan_add,scan_add,List.getElem?_drop]

theorem Calm.drop {a b : Nat} (h : s.Calm bound (a + b) text) :
    (s.scan a text).Calm (bound - a) b (text.drop a) :=
  fun i lt within => calmAt_add.mp (h (a + i) (by omega) (by omega))

theorem Calm.take {a b : Nat} (h : s.Calm bound (a + b) text) : s.Calm bound a text :=
  fun i lt => h i (by omega)

/-- The scan counts braces as the reader of templates does. -/
theorem leads_templateBody {start here : Place} {depth size : Nat} {outer : List Nat}
    (read : templateBody start here depth text = .ok size) (unbroken : Unbroken bound text)
    (calm : s.Calm bound size text)
    (h : s.At (if depth = 0 then .template else .code) (depth :: outer)) :
    s.Leads bound size text (At · .code outer) := by
  fun_induction templateBody start here depth text generalizing size s outer bound with
  | case1 | case3 | case7 | case9 => cases read
  | case2 start here rest =>
    cases read
    have reads := h.read_closingTick rest.head?
    exact .single reads (by simp)
  | case4 start here next rest notTick ih =>
    obtain ⟨n, later, rfl⟩ := map_eq_ok.mp read
    refine .escape h trivial fun s' at_ same => ?_
    subst same
    exact ih later (unbroken.drop 2) calm.drop at_
  | case5 start here c rest notTick notEscape opens ih =>
    obtain ⟨n, later, rfl⟩ := map_eq_ok.mp read
    obtain ⟨rfl, brace⟩ := opens
    obtain ⟨rest, rfl⟩ := List.head?_eq_some_iff.mp brace
    have reads := h.read_substitution rest.head?
    rw [show 2 + n = 1 + (1 + n) by omega]
    refine .cons (by simp) (.cons_at reads (by simp) ?_)
    rw [Nat.sub_sub]
    exact ih later (unbroken.drop 2) calm.drop reads
  | case6 start here c rest notTick notEscape plain ih =>
    obtain ⟨n, later, rfl⟩ := map_eq_ok.mp read
    have reads := h.read_templateText rest.head? notEscape notTick plain
    exact .cons_at reads (by simp) (ih later (unbroken.drop 1) calm.drop reads)
  | case8 =>
    rename_i depth rest inside inner nested _ ihInner ih
    obtain ⟨n, later, rfl⟩ := map_eq_ok.mp read
    rw [if_neg inside] at h
    have reads := h.read_tick rest.head?
    rw [Nat.add_assoc] at calm ⊢
    have calm : (s.read '\x60' rest.head?).Calm (bound - 1) (inner + n) rest := calm.drop
    refine .cons_at reads (by simp) (Leads.add (ihInner nested (unbroken.drop 1) calm.take reads) ?_)
    intro _ at_
    exact ih later ((unbroken.drop 1).drop inner) calm.drop (by rwa [if_neg inside])
  | case10 =>
    rename_i depth quote rest inside notTick isQuote body string _ ih
    obtain ⟨n, later, rfl⟩ := map_eq_ok.mp read
    rw [if_neg inside] at h
    have reads := h.read_quote rest.head? isQuote
    have notFeed : quote ≠ '\n' := by obtain rfl | rfl := isQuote <;> decide
    rw [Nat.add_assoc] at calm ⊢
    have calm : (s.read quote rest.head?).Calm (bound - 1) (body.size + n) rest := calm.drop
    refine .cons_at reads (fun feed => absurd feed notFeed)
      (Leads.add (leads_stringBody string isQuote (unbroken.drop 1) reads) ?_)
    intro _ at_
    exact ih later ((unbroken.drop 1).drop body.size) calm.drop (by rwa [if_neg inside])
  | case11 =>
    rename_i depth c rest inside notTick notQuote depth' ih
    obtain ⟨n, later, rfl⟩ := map_eq_ok.mp read
    rw [if_neg inside] at h
    obtain rfl | within := Nat.eq_zero_or_pos bound
    · exact .beyond (by omega)
    obtain ⟨notFeed, slash⟩ := calm.head within h.inRegion
    obtain ⟨depth, rfl⟩ := Nat.exists_eq_succ_of_ne_zero inside
    have reads := h.read_substituted rest.head? notFeed notTick notQuote slash
    exact .cons_at reads (fun feed => absurd feed notFeed)
      (ih later (unbroken.drop 1) calm.drop reads)

end Literals

section Tokens

theorem leads_token {bound : Nat} {last : Option Token} {r : Reading Token}
    (shape : TokenShape last text r) (solid : Solid text) (unbroken : Unbroken bound text)
    (calm : r.value.isTemplate = true → s.Calm bound r.size text)
    (slash : text.head? = some '/' → s.allowsRegex = r.value.isRegex) (h : s.At .code []) :
    s.Leads bound r.size text (At · .code []) := by
  cases shape with
  | string quote read =>
    refine .cons_at (h.read_quote _ quote) (fun feed => ?_)
      (leads_stringBody read quote (unbroken.drop 1) (h.read_quote _ quote))
    subst feed
    simp at quote
  | @template _ _ rest _ _ read =>
    have reads := h.read_tick rest.head?
    exact .cons_at reads (by simp)
      (leads_templateBody read (unbroken.drop 1) (calm rfl).drop reads)
  | @regex rest size _ _ _ read =>
    have reads := h.read_slash _ (solid.2 rfl)
    rw [slash rfl] at reads
    rw [Nat.add_assoc]
    refine .cons_at reads (by simp) ((leads_regexBody read reads).add fun _ at_ => ?_)
    exact leads_plain at_ (allPlain_name _)
  | division =>
    have reads := h.read_slash _ (solid.2 rfl)
    rw [slash rfl] at reads
    exact .single reads (by simp)
  | @divisionAssignment rest =>
    have reads := h.read_slash _ (solid.2 rfl)
    rw [slash rfl] at reads
    have reads' := reads.read_plain (c := '=') rest.head? (by decide)
    exact (Leads.single reads (by simp)).add fun _ _ => .single reads' (by simp)
  | plain _ all => exact leads_plain h all

end Tokens

section Gaps

variable {bound : Nat}

def Between (s : RegionState) (text : List Char) : Prop :=
  s.At .code [] ∨ s.At .lineComment [] ∧ AtLineEnd text

theorem At.read_comment {next : Option Char} (h : s.At .blockComment stack) : s.read c next =
    { (if c = '/' ∧ s.previous = some '*' then { s with region := .code } else s) with
      previous := some c } := by
  simp [read,h.inRegion,h.settled]

theorem leads_commentBody {body : List Char} (h : s.At .blockComment stack)
    (first : ¬ ['*', '/'] <:+: body) (fresh : s.previous = some '*' → body.head? ≠ some '/') :
    s.Leads bound (body.length + 2) (body ++ '*' :: '/' :: rest) (At · .code stack) := by
  induction body generalizing s bound with
  | nil =>
    have reads : (s.read '*' (some '/')).At .blockComment stack := by
      rw [h.read_comment,at_previous]
      simpa using h
    have reads' : ((s.read '*' (some '/')).read '/' rest.head?).At .code stack := by
      rw [reads.read_comment,at_previous]
      have star : (s.read '*' (some '/')).previous = some '*' := by rw [h.read_comment]
      simp only [star,and_self,if_true]
      exact ⟨rfl, reads.opened, reads.unescaped, reads.settled⟩
    exact (Leads.single reads (by simp)).add fun _ _ => .single reads' (by simp)
  | cons c body ih =>
    have reads : (s.read c (body ++ '*' :: '/' :: rest).head?).At .blockComment stack := by
      rw [h.read_comment,at_previous,if_neg]
      · exact h
      · exact fun closes => fresh closes.2 (by simp [closes.1])
    rw [show (c :: body).length + 2 = 1 + (body.length + 2) by simp only [List.length_cons]; omega]
    refine .cons_at reads (by simp) (ih reads ?_ ?_)
    · exact fun inside => first (inside.trans (List.suffix_cons c body).isInfix)
    · intro star slash
      obtain ⟨tail, rfl⟩ := List.head?_eq_some_iff.mp slash
      rw [h.read_comment] at star
      obtain rfl : c = '*' := by simpa using star
      exact first ⟨[], tail, rfl⟩

theorem leads_block {body : List Char} (h : s.At .code stack) (first : ¬ ['*', '/'] <:+: body) :
    s.Leads bound ('/' :: '*' :: (body ++ ['*', '/'])).length
      ('/' :: '*' :: (body ++ ['*', '/']) ++ rest) (At · .code stack) := by
  have opens : s.read '/' (some '*') =
      { s with region := .blockComment, skipping := true, previous := some '/' } := by
    rw [h.read_code]
    simp [readCode]
  have reads (next : Option Char) : ((s.read '/' (some '*')).read '*' next).At .blockComment stack ∧
      ((s.read '/' (some '*')).read '*' next).previous = none := by
    rw [opens]
    exact ⟨⟨rfl, h.opened, h.unescaped, rfl⟩, rfl⟩
  obtain ⟨reads, fresh⟩ := reads (body ++ '*' :: '/' :: rest).head?
  have size : ('/' :: '*' :: (body ++ ['*', '/'])).length = 1 + (1 + (body.length + 2)) := by
    simp only [List.length_cons,List.length_append,List.length_nil]
    omega
  have whole : '/' :: '*' :: (body ++ ['*', '/']) ++ rest =
      '/' :: '*' :: (body ++ '*' :: '/' :: rest) := by simp
  rw [size,whole]
  refine .cons (by simp) (.cons_at reads (by simp) (leads_commentBody reads first ?_))
  exact fun star => absurd (fresh.symm.trans star) (by simp)

theorem leads_line {body : List Char} (h : s.At .code stack) (single : '\n' ∉ body) :
    s.Leads bound ('/' :: '/' :: body).length ('/' :: '/' :: body ++ rest)
      (At · .lineComment stack) := by
  have stays (s : RegionState) (c : Char) (next : Option Char) (h : s.At .lineComment stack)
      (inside : c ≠ '\n') : (s.read c next).At .lineComment stack := by
    have reads : s.read c next = { s with previous := some c } := by
      simp [read,h.inRegion,h.settled,inside]
    rw [reads,at_previous]
    exact h
  have reads : (s.read '/' (some '/')).At .lineComment stack := by
    rw [h.read_code,at_previous]
    simp only [readCode,and_self,if_true,at_note]
    exact ⟨rfl, h.opened, h.unescaped, h.settled⟩
  have size : ('/' :: '/' :: body).length = 1 + (1 + body.length) := by
    simp only [List.length_cons]
    omega
  rw [size,List.cons_append,List.cons_append]
  have reads' := stays _ '/' (body ++ rest).head? reads (by decide)
  refine .cons_at reads (by simp) (.cons_at reads' (by simp) ?_)
  apply leads_run (p := (· ≠ '\n')) (by simp) stays reads'
  rw [List.take_left]
  exact fun c member same => single (same ▸ member)

theorem plain_of_blank (blank : isBlank c = true ∨ c = '\uFEFF') : c = '\n' ∨ Plain c := by
  by_cases feed : c = '\n'
  · exact Or.inl feed
  right
  intro special
  simp only [List.mem_cons,List.not_mem_nil,or_false] at special
  obtain rfl | rfl | rfl | rfl | rfl := special
  · exact feed rfl
  all_goals exact absurd blank (by decide)

theorem At.read_feed {next : Option Char} (h : s.At .lineComment stack) : (s.read '\n' next).At .code stack := by
  have reads : s.read '\n' next = { s with region := .code, previous := some '\n' } := by
    simp [read,h.inRegion,h.settled]
  rw [reads]
  exact ⟨rfl, h.opened, h.unescaped, h.settled⟩

theorem Between.code_of_slash (h : s.Between text) (slash : text.head? = some '/') :
    s.At .code [] := by
  obtain code | ⟨-, rfl | feed⟩ := h
  · exact code
  · cases slash
  · rw [feed] at slash
    exact absurd slash (by decide)

theorem Between.code_of_solid (h : s.Between text) (solid : Solid text)
    (nonempty : text ≠ []) : s.At .code [] := by
  obtain code | ⟨-, ends⟩ := h
  · exact code
  · obtain rfl | ⟨rest, rfl⟩ := atLineEnd_iff.mp ends
    · exact absurd rfl nonempty
    · exact absurd solid.1 (by decide)

/-- The scan comes through a gap that `rest` follows, and what is left of the gap after a line
that starts in code is a gap. -/
structure CrossesGap (s : RegionState) (rest gap : List Char) : Prop where
  arrives : (s.scan gap.length (gap ++ rest)).Between rest
  cuts : ∀ i < gap.length, (gap ++ rest)[i]? = some '\n' →
    (s.scan (i + 1) (gap ++ rest)).region = .code → Gap rest (gap.drop (i + 1))

theorem CrossesGap.comment {comment gap : List Char}
    (first : ∀ bound, s.Leads bound comment.length (comment ++ (gap ++ rest))
      (Between · (gap ++ rest)))
    (later : ∀ s, s.Between (gap ++ rest) → CrossesGap s rest gap) :
    CrossesGap s rest (comment ++ gap) := by
  obtain ⟨arrives, cuts⟩ := later _ ((first _).arrives le_rfl)
  constructor
  · rwa [List.length_append,List.append_assoc,scan_add,List.drop_left]
  · intro i lt feed code
    rw [List.append_assoc] at feed code
    obtain ⟨j, rfl, feed, code⟩ := (first (i + 1)).past (Nat.lt_succ_self i) feed code
    rw [List.drop_left] at feed code
    rw [List.length_append] at lt
    have left := cuts j (by omega) feed code
    rwa [Nat.add_assoc,← List.drop_drop,List.drop_left]

theorem crossesGap {gap : List Char} (h : Gap rest gap) (between : s.Between (gap ++ rest)) :
    CrossesGap s rest gap := by
  induction h generalizing s with
  | nil => exact ⟨by simpa using between, by simp⟩
  | @blank c gap isBlank later ih =>
    have reads : (s.read c (gap ++ rest).head?).At .code [] := by
      obtain code | ⟨comment, ends⟩ := between
      · exact code.read_plain _ (plain_of_blank isBlank)
      · obtain rfl : c = '\n' := by simpa [AtLineEnd] using ends
        exact comment.read_feed
    obtain ⟨arrives, cuts⟩ := ih (Or.inl reads)
    refine ⟨arrives, fun i lt feed code => ?_⟩
    cases i with
    | zero => exact later
    | succ i => exact cuts i (by simpa using lt) (by simpa using feed) code
  | @line body gap single ends _ ih =>
    have first (bound : Nat) : s.Leads bound ('/' :: '/' :: body).length
        ('/' :: '/' :: body ++ (gap ++ rest)) (At · .lineComment []) :=
      leads_line (between.code_of_slash rfl) single
    exact .comment (fun bound => (first bound).mono fun _ at_ => Or.inr ⟨at_, ends⟩) fun _ => ih
  | @block body gap unclosed _ ih =>
    have first (bound : Nat) : s.Leads bound ('/' :: '*' :: (body ++ ['*', '/'])).length
        ('/' :: '*' :: (body ++ ['*', '/']) ++ (gap ++ rest)) (At · .code []) :=
      leads_block (between.code_of_slash rfl) unclosed
    have whole : '/' :: '*' :: (body ++ '*' :: '/' :: gap) =
        '/' :: '*' :: (body ++ ['*', '/']) ++ gap := by simp
    rw [whole]
    exact .comment (fun bound => (first bound).mono fun _ at_ => Or.inl at_) fun _ => ih

end Gaps

end RegionState
end CodeCompletion
