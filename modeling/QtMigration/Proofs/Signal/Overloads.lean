import QtMigration.Proofs.Line.Indent
import QtMigration.Proofs.Signal.Spelled
import QtMigration.Signal.Connection

/-!
# Proofs/Signal/Overloads — the overloads of an old-style connection

**Every such call is rewritten to its new style** (`updateCall_line`), unless it is misread: a slot whose
name ends in the keyword of signals is taken for a signal, and for the old library a type that is spelled
like a C string put aside is taken for one (`OldCall.isClear`).
-/

namespace QtMigration

open List Text

/-! ## Calls -/

def callPieces : List Text := ["SIGNAL(", "SLOT(", "lambda ", ".connect("]

/-- **A plain argument**: trimmed, with nested parentheses and no comma outside them, on one row, and with
neither a string nor a declaration, a `lambda` or a connection in it. -/
def isPlainArgument (s : Text) : Bool :=
  (!s.isEmpty && s.trim == s) && (isNested 0 s && s.all fun c => !isQuote c && c != '\n') && !s.hasAny callPieces

structure PlainArgument where
  text : Text
  plain : isPlainArgument text = true

/-- The name of a signal or a slot whose overloads are told apart. -/
structure SignalName where
  text : Text
  name : isName text = true
  typed : text ≠ untypedSignal

/-- A type that has the same name in every library. -/
structure TypeName where
  text : Text
  name : isName text = true
  common : text.hasAny ["QString", "PyQt_PyObject"] = false

def isPath (s : Text) : Bool := (s.splitOn ".").all isName

/-- What a signal is connected to. -/
inductive Goal
  | slot (object : PlainArgument) (name : SignalName) (types : List TypeName)
  | signal (object : PlainArgument) (name : SignalName) (types : List TypeName)
  /-- A signal of the object that makes the call. -/
  | ownSignal (name : SignalName) (types : List TypeName)
  | callable (function : PlainArgument)

/-- **An old-style connection.** -/
structure OldCall where
  indent : Text
  /-- The object whose method is called. -/
  path : Text
  sender : PlainArgument
  signal : SignalName
  types : List TypeName
  goal : Goal
  /-- The connection type. -/
  option : Option PlainArgument
  spaces : ∀ c ∈ indent, c = ' '
  dotted : isPath path = true

def bracketed (types : List TypeName) : Text :=
  if types.isEmpty then [] else "[" ++ Text.commaList (types.map TypeName.text) ++ "]"

namespace Goal

def args : Goal → List Text
  | slot object name types => [object.text, declaration "SLOT" name.text (types.map TypeName.text)]
  | signal object name types => [object.text, declaration "SIGNAL" name.text (types.map TypeName.text)]
  | ownSignal name types => [declaration "SIGNAL" name.text (types.map TypeName.text)]
  | callable function => [function.text]

def newStyle : Goal → Text
  | slot object name _ => object.text ++ "." ++ name.text
  | signal object name types => object.text ++ "." ++ name.text ++ bracketed types
  | ownSignal name types => "self." ++ name.text ++ bracketed types
  | callable function => function.text

/-- The declaration of the signal that it is; empty for a slot or a callable. -/
def relayed : Goal → Text
  | signal _ name types | ownSignal name types => declaration "SIGNAL" name.text (types.map TypeName.text)
  | slot .. | callable _ => []

def types : Goal → List TypeName
  | signal _ _ types | ownSignal _ types => types
  | slot .. | callable _ => []

def isClear : Goal → Bool
  | slot _ name _ => !name.text.endsWith "SIGNAL"
  | _ => true

end Goal

namespace OldCall

def args (c : OldCall) : List Text :=
  c.sender.text :: declaration "SIGNAL" c.signal.text (c.types.map TypeName.text) ::
    (c.goal.args ++ c.option.toList.map PlainArgument.text)

def line (c : OldCall) : Text := c.indent ++ c.path ++ ".connect(" ++ Text.commaList c.args ++ ")\n"

def newLine (c : OldCall) : Text :=
  c.indent ++ c.sender.text ++ "." ++ c.signal.text ++ bracketed c.types ++ ".connect(" ++
    Text.commaList (c.goal.newStyle :: c.option.toList.map PlainArgument.text) ++ ")\n"

def isClear (c : OldCall) (target : Target) : Bool :=
  c.goal.isClear &&
    (target == .new || (c.types ++ c.goal.types).all fun t => !t.text.hasAny asideNames)

end OldCall

/-! ## Arguments -/

namespace PlainArgument

variable (p : PlainArgument)

theorem facts : (p.text ≠ [] ∧ p.text.trim = p.text) ∧ (isNested 0 p.text ∧
    ∀ c ∈ p.text, isQuote c = false ∧ c ≠ '\n') ∧ ∀ piece ∈ callPieces, p.text.has piece = false := by
  have h := p.plain
  simp only [isPlainArgument, Bool.and_eq_true, Bool.not_eq_true', isEmpty_eq_false_iff, beq_iff_eq,
    all_eq_true, bne_iff_ne, hasAny_eq_false_iff] at h
  exact ⟨h.1.1, h.1.2, h.2⟩

theorem notMem_of_isQuote {c : Char} (hc : isQuote c) : c ∉ p.text := fun hm => by
  rw [(p.facts.2.1.2 c hm).1] at hc
  cases hc

theorem isArgument : IsArgument p.text where
  onePiece := .of_isNested p.facts.2.1.1 (p.notMem_of_isQuote (by decide)) (p.notMem_of_isQuote (by decide))
  trimmed := p.facts.1.2
  filled := p.facts.1.1
  noLambda := p.facts.2.2 _ (by decide)

theorem not_isDeclared : isDeclared p.text = false := by
  rw [isDeclared, p.facts.2.2 _ (by decide), p.facts.2.2 _ (by decide), Bool.false_or]

theorem exists_cons : ∃ c s, p.text = c :: s ∧ Text.isBlank c = false := by
  obtain ⟨c, s, hs⟩ := exists_cons_of_ne_nil p.facts.1.1
  refine ⟨c, s, hs, Bool.eq_false_iff.mpr fun hb => ?_⟩
  have ht := p.facts.1.2
  rw [hs, trim_cons_blank hb] at ht
  have hsh := ( trim_infix s).length_le
  rw [ht, length_cons] at hsh
  omega

end PlainArgument

theorem isName_of_mem_types {types : List TypeName} : ∀ t ∈ types.map TypeName.text, isName t := by
  rintro _ ht
  obtain ⟨t, -, rfl⟩ := mem_map.mp ht
  exact t.name

theorem isArgument_quoted {keyword content : Text} (hkeyword : keyword ∈ declarationKeywords) (hq : '"' ∉ content)
    (hl : content.has "lambda " = false) :
    IsArgument (keyword ++ '(' :: '"' :: (content ++ ['"', ')'])) where
  onePiece := by
    have hk : OnePiece keyword := by
      have hf : ∀ k ∈ declarationKeywords, isNested 0 k ∧ '"' ∉ k ∧ '\'' ∉ k := by decide
      obtain ⟨hn, hd, hs⟩ := hf keyword hkeyword
      exact .of_isNested hn hd hs
    exact hk.append (.quoted hq)
  trimmed := by
    obtain ⟨k, rfl⟩ : ∃ k, keyword = 'S' :: k := by
      simp only [declarationKeywords, mem_cons, not_mem_nil, or_false] at hkeyword
      rcases hkeyword with rfl | rfl <;> exact ⟨_, rfl⟩
    have hc : 'S' :: k ++ '(' :: '"' :: (content ++ ['"', ')']) =
        ('S' :: (k ++ '(' :: '"' :: (content ++ ['"']))) ++ [')'] := by
      simp
    rw [hc, Text.trim, cons_append, trimLeft_cons (by decide), ← cons_append, trimRight_concat (by decide)]
  filled := by simp
  noLambda := by
    have hk : keyword.has "lambda " = false :=
      (show ∀ k ∈ declarationKeywords, Text.has k "lambda " = false by decide) keyword hkeyword
    have hst : Text.has ([] ++ '"' :: (content ++ '"' :: [')'])) "lambda " = false := by
      rw [has_append_cons (by decide), has_append_cons (by decide), hl]
      decide
    rw [has_append_cons (by decide), hk, Bool.false_or]
    exact hst

section Declarations

variable {keyword : Text} (hkeyword : keyword ∈ declarationKeywords) {name : Text} (hname : isName name = true)
  {types : List Text} (hnames : ∀ t ∈ types, isName t = true)

include hname hnames

theorem notMem_spelling {c : Char} (hc : isNameChar c = false) (ho : c ∉ [',', ' ', '(', ')']) :
    c ∉ spelling name types := by
  simp only [mem_cons, not_mem_nil, or_false, not_or] at ho
  obtain ⟨hco, hb, hop, hcl⟩ := ho
  rw [spelling, mem_append, mem_cons, mem_append, mem_singleton, not_or, not_or, not_or]
  exact ⟨notMem_of_isName hname hc, hop, notMem_commaList hnames hc hco hb, hcl⟩

include hkeyword

theorem notMem_declaration : '.' ∉ declaration keyword name types := by
  have hd : '.' ∉ keyword := (show ∀ k ∈ declarationKeywords, '.' ∉ k by decide) keyword hkeyword
  rw [declaration, mem_append, mem_cons, mem_cons, mem_append, not_or, not_or, not_or, not_or]
  exact ⟨hd, by decide, by decide, notMem_spelling hname hnames (by decide) (by decide), by decide⟩

theorem isArgument_declaration : IsArgument (declaration keyword name types) := by
  refine isArgument_quoted hkeyword (notMem_spelling hname hnames (by decide) (by decide)) ?_
  have hty : (Text.commaList types).has "lambda " = false := by
    refine (has_commaList (by decide) (by decide) (by decide) _).trans (any_eq_false.mpr fun t ht => ?_)
    rw [has_name (hnames t ht) (c := ' ') (by decide) (by decide)]
    decide
  rw [spelling, has_append_cons (by decide), has_name hname (c := ' ') (by decide) (by decide),
    has_append_cons (by decide), hty]
  decide

end Declarations

theorem relayOf_slot {name : SignalName} {types : List TypeName} (h : name.text.endsWith "SIGNAL" = false) :
    relayOf (declaration "SLOT" name.text (types.map TypeName.text)) = [] := by
  have hkeyword : ((("SIGNAL(" : String).toList : Text)) = ("SIGNAL" : Text) ++ ['('] := by decide
  have hs : (spelling name.text (types.map TypeName.text)).has "SIGNAL(" = false := by
    rw [hkeyword]
    refine has_concat_eq_false (notMem_of_isName name.name (by decide)) ?_ h
    rw [mem_append, not_or]
    exact ⟨notMem_commaList isName_of_mem_types (by decide) (by decide) (by decide), by decide⟩
  have hd : declaration "SLOT" name.text (types.map TypeName.text) =
      ("SLOT(" : Text) ++ '"' :: (spelling name.text (types.map TypeName.text) ++ '"' :: [')']) := by
    simp [declaration]
  rw [relayOf, hd, has_append_cons (by decide), has_append_cons (by decide), hs, if_neg (by decide)]

theorem has_signal_declaration (name : Text) (types : List Text) :
    (declaration "SIGNAL" name types).has "SIGNAL(" := by
  have hkeyword : (("SIGNAL(" : String).toList : Text) = ("SIGNAL" : Text) ++ ['('] := by decide
  rw [hkeyword]
  exact has_iff_infix.mpr ⟨[], '"' :: (spelling name types ++ ['"', ')']), by simp [declaration]⟩

theorem relayOf_signal (name : Text) (types : List Text) :
    relayOf (declaration "SIGNAL" name types) = declaration "SIGNAL" name types :=
  if_pos (has_signal_declaration name types)

theorem isCode_blanks {blanks : Text} (hb : ∀ c ∈ blanks, Text.isBlank c) {d : Char}
    (hd : Text.isBlank d = false) (rest : Text) : Text.isCode (blanks ++ d :: rest) = (d != '#' && d != '"' && d != '\'') := by
  have ht : Text.trimLeft (blanks ++ d :: rest) = d :: rest := by
    rw [Text.trimLeft, Text.trimLeftWhile, dropWhile_append_of_pos hb,
      dropWhile_cons_of_neg (by rw [hd]; decide)]
  rw [isCode_eq_head, ht, head?_cons, Option.any_some]

section Paths

variable {path : Text} (h : isPath path = true)

include h

theorem notMem_of_isPath {d : Char} (hd : isNameChar d = false) (hdot : d ≠ '.') : d ∉ path := by
  have hnames := all_eq_true.mp h
  have hp := @Text.flatten_splitOn path "." _ _ (by decide) rfl
  intro hm
  rw [← hp, mem_append, mem_flatten] at hm
  rcases hm with hm | ⟨piece, hpi, hm⟩
  · exact notMem_of_isName (hnames _ mem_cons_self) hd hm
  · obtain ⟨tail, ht, rfl⟩ := mem_map.mp hpi
    rcases mem_append.mp hm with hm | hm
    · exact hdot (mem_singleton.mp hm)
    · exact notMem_of_isName (hnames _ (mem_cons_of_mem _ ht)) hd hm

theorem exists_cons_of_isPath : ∃ d s, path = d :: s ∧ isNameChar d := by
  have hname := all_eq_true.mp h _ mem_cons_self
  have hp := @Text.flatten_splitOn path "." _ _ (by decide) rfl
  obtain ⟨d, s, hs⟩ := exists_cons_of_ne_nil (ne_nil_of_isName hname)
  rw [hs] at hname hp
  exact ⟨d, _, hp.symm, isNameChar_of_mem hname mem_cons_self⟩

theorem isCode_path {blanks : Text} (hb : ∀ c ∈ blanks, Text.isBlank c) (rest : Text) :
    Text.isCode (blanks ++ (path ++ rest)) := by
  obtain ⟨d, s, rfl, hd⟩ := exists_cons_of_isPath h
  have ho : ∀ e : Char, isNameChar e = false → (d != e) := fun e he => by
    rw [bne_iff_ne]
    rintro rfl
    rw [he] at hd
    cases hd
  rw [cons_append, isCode_blanks hb (isBlank_of_isNameChar hd), ho '#' (by decide),
    ho '"' (by decide), ho '\'' (by decide)]
  rfl

end Paths

theorem exists_three {P : Char → Prop} {s t : Text} {x y : Char} (hne : s ≠ []) (hs : ∀ d ∈ s, P d) (hx : P x)
    (hy : P y) : ∃ a b e rest, s ++ x :: y :: t = a :: b :: e :: rest ∧ s.head? = some a ∧ ∀ d ∈ [a, b, e], P d := by
  match s, hne with
  | [a], _ => exact ⟨a, x, y, t, rfl, rfl, by simp_all⟩
  | [a, b], _ => exact ⟨a, b, x, y :: t, rfl, rfl, by simp_all⟩
  | a :: b :: e :: s, _ => exact ⟨a, b, e, s ++ x :: y :: t, rfl, rfl, by simp_all⟩

/-- **What stands around a call** of the method `verb`: the line begins with code, and has no other call of it and
no closing parenthesis behind. -/
structure CallFrame (verb : Text) where
  indent : Text
  /-- The object whose method is called, with what stands before it. -/
  receiver : Text
  behind : Text
  named : isName verb = true
  spaces : ∀ c ∈ indent, c = ' '
  begins : (receiver.head?.any fun c => !Text.isBlank c && c != '#') = true
  plain : (receiver.all fun c => !isQuote c && c != '\n') = true
  first : receiver.has ("." ++ verb ++ "(") = false
  last : behind.has ("." ++ verb ++ "(") = false
  ended : ')' ∉ behind

namespace CallFrame

variable {verb : Text} (f : CallFrame verb) (args : List Text)

def line : Text :=
  f.indent ++ f.receiver ++ ("." ++ verb ++ "(") ++ Text.commaList args ++ ")" ++ f.behind ++ "\n"

theorem method_eq : ("." : Text) ++ verb ++ "(" = ('.' :: verb) ++ ['('] := rfl

theorem exists_line : ∃ a b e rest, f.line args = f.indent ++ a :: b :: e :: rest ∧
    (Text.isBlank a = false ∧ a ≠ '#') ∧ ∀ d ∈ [a, b, e], d ≠ '\n' ∧ isQuote d = false := by
  have hp := all_eq_true.mp f.plain
  have hb := f.begins
  obtain ⟨v, vs, hve⟩ := exists_cons_of_ne_nil (ne_nil_of_isName f.named)
  have hv := isNameChar_of_mem f.named (c := v) (by rw [hve]; exact mem_cons_self)
  have hvp : v ≠ '\n' ∧ isQuote v = false := by
    refine ⟨?_, Bool.eq_false_iff.mpr fun hq => ?_⟩
    · rintro rfl
      exact absurd hv (by decide)
    · rw [isQuote, Bool.or_eq_true, beq_iff_eq, beq_iff_eq] at hq
      rcases hq with rfl | rfl <;> exact absurd hv (by decide)
  have hne : f.receiver ≠ [] := by
    rintro hn
    rw [hn] at hb
    cases hb
  obtain ⟨a, b, e, rest, hl, ha, hf⟩ := exists_three (P := fun d => d ≠ '\n' ∧ isQuote d = false) hne
    (fun d hd => by simpa [and_comm] using hp d hd) (x := '.') (by decide) hvp
    (t := vs ++ (("(" : Text) ++ (Text.commaList args ++ (")" ++ (f.behind ++ "\n")))))
  rw [ha, Option.any_some, Bool.and_eq_true, Bool.not_eq_true', bne_iff_ne] at hb
  refine ⟨a, b, e, rest, ?_, hb, hf⟩
  have hm : ("." : Text) ++ verb ++ "(" = '.' :: v :: (vs ++ "(") := by rw [hve]; rfl
  rw [← hl, line, hm]
  simp only [append_assoc, cons_append]

theorem indent_line : (f.line args).indent = .ok f.indent := by
  obtain ⟨a, b, e, rest, hl, ⟨hb, hm⟩, hf⟩ := f.exists_line args
  rw [hl]
  exact indent_spaces f.spaces (fun hmem => (hf _ hmem).1 rfl) (fun e he => (hf e he).2) hb hm

theorem isCode_line : (f.line args).isCode := by
  obtain ⟨a, b, e, rest, hl, ⟨hb, hm⟩, hf⟩ := f.exists_line args
  have hq := (hf a mem_cons_self).2
  rw [isQuote, Bool.or_eq_false_iff] at hq
  rw [hl, isCode_blanks (fun d hd => by rw [f.spaces d hd]; decide) hb, bne_iff_ne.mpr hm, bne, bne, hq.1,
    hq.2]
  rfl

variable {args} (hargs : ∀ arg ∈ args, IsArgument arg ∧ arg.has ("." ++ verb ++ "(") = false)

include hargs

theorem callContent?_line : callContent? (f.line args) ("." ++ verb ++ "(") = some (Text.commaList args) := by
  have hop : '(' ∉ '.' :: verb := by
    rw [mem_cons, not_or]
    exact ⟨by decide, notMem_of_isName f.named (by decide)⟩
  have ho : ∀ c, c = ',' ∨ c = ')' → c ∉ ("." : Text) ++ verb ++ "(" := by
    intro c hc
    rw [append_assoc, mem_append, mem_append, not_or, not_or]
    rcases hc with rfl | rfl <;> exact ⟨by decide, notMem_of_isName f.named (by decide), by decide⟩
  have hb : Text.has (f.indent ++ f.receiver) ("." ++ verb ++ "(") = false :=
    has_append_of_notMem (c := '.') f.first fun hm => absurd (f.spaces _ hm) (by decide)
  have hli : (Text.commaList args).has ("." ++ verb ++ "(") = false := by
    refine (has_commaList (by simp) (ho _ (.inl rfl)) ?_ _).trans
      (any_eq_false.mpr fun arg ha => Bool.eq_false_iff.mp (hargs arg ha).2)
    exact fun h => absurd (Option.some.inj h) (by decide)
  have he : Text.has (f.behind ++ "\n") ("." ++ verb ++ "(") = false :=
    @Text.has_append_eq_false _ _ ('.' :: verb) _ f.last (by decide)
  have hbe : Text.has (Text.commaList args ++ ')' :: (f.behind ++ "\n")) ("." ++ verb ++ "(") = false := by
    rw [has_append_cons (ho _ (.inr rfl)), hli, he]
    rfl
  have hl : f.line args = (f.indent ++ f.receiver) ++ ((('.' :: verb) ++ ['(']) ++
      (Text.commaList args ++ ')' :: (f.behind ++ "\n"))) := by
    simp [line]
  rw [method_eq] at hb hbe ⊢
  rw [callContent?, hl, splitOn_eq_pair hop hb hbe]
  refine beforeLast?_append ?_
  rw [mem_append, not_or]
  exact ⟨f.ended, by decide⟩

theorem updateCall_line (hsignal : ∃ arg ∈ args, arg.has "SIGNAL(") {parse : List Text → Run (Option Connection)}
    {read : Run Connection} (hr : parse args = some <$> read) :
    updateCall verb parse (f.line args) = (fun c => some (c.render f.indent verb, c)) <$> read := by
  have hm : (f.line args).has ("." ++ verb ++ "(") :=
    has_iff_infix.mpr ⟨f.indent ++ f.receiver, Text.commaList args ++ ")" ++ f.behind ++ "\n",
      by simp only [line, append_assoc]⟩
  have hd : (f.line args).has "SIGNAL(" := by
    have hl : (Text.commaList args).has "SIGNAL(" := by
      rw [has_commaList (by decide) (by decide) (by decide), any_eq_true]
      exact hsignal
    refine has_iff_infix.mpr (( has_iff_infix.mp hl).trans ?_)
    exact ⟨f.indent ++ f.receiver ++ ("." ++ verb ++ "("), ")" ++ f.behind ++ "\n", by simp only [line, append_assoc]⟩
  rw [updateCall, f.isCode_line, hm, hd, Bool.not_true, Bool.or_false, Bool.or_false, if_neg (by decide),
    f.callContent?_line hargs]
  dsimp only
  rw [splitArguments_commaList fun arg ha => (hargs arg ha).1, f.indent_line]
  change (parse args >>= _) = _
  rw [hr, map_eq_pure_bind, map_eq_pure_bind, bind_assoc]
  refine bind_congr fun c => ?_
  rw [pure_bind]
  rfl

end CallFrame

namespace OldCall

variable (c : OldCall)

theorem forall_mem_args : ∀ arg ∈ c.args, IsArgument arg ∧ arg.has ".connect(" = false := by
  have hp : ∀ p : PlainArgument, IsArgument p.text ∧ p.text.has ".connect(" = false := fun p =>
    ⟨p.isArgument, p.facts.2.2 _ (by decide)⟩
  have hd : ∀ keyword ∈ declarationKeywords, ∀ (name : SignalName) (types : List TypeName),
      IsArgument (declaration keyword name.text (types.map TypeName.text)) ∧
        (declaration keyword name.text (types.map TypeName.text)).has ".connect(" = false :=
    fun keyword hkeyword name types => ⟨isArgument_declaration hkeyword name.name isName_of_mem_types,
      has_eq_false_of_notMem (by decide) (notMem_declaration hkeyword name.name isName_of_mem_types)⟩
  have hg : ∀ arg ∈ c.goal.args, IsArgument arg ∧ arg.has ".connect(" = false := by
    cases c.goal with
    | slot object name types =>
      exact forall_mem_cons.mpr ⟨hp object, forall_mem_singleton.mpr (hd _ (by decide) name types)⟩
    | signal object name types =>
      exact forall_mem_cons.mpr ⟨hp object, forall_mem_singleton.mpr (hd _ (by decide) name types)⟩
    | ownSignal name types => exact forall_mem_singleton.mpr (hd _ (by decide) name types)
    | callable function => exact forall_mem_singleton.mpr (hp function)
  refine forall_mem_cons.mpr ⟨hp c.sender, forall_mem_cons.mpr
    ⟨hd _ (by decide) c.signal c.types, forall_mem_append.mpr ⟨hg, fun arg ha => ?_⟩⟩⟩
  obtain ⟨p, -, rfl⟩ := mem_map.mp ha
  exact hp p

def frame : CallFrame "connect" where
  indent := c.indent
  receiver := c.path
  behind := []
  named := by decide
  spaces := c.spaces
  begins := by
    obtain ⟨d, s, hpath, hd⟩ := exists_cons_of_isPath c.dotted
    rw [hpath, head?_cons, Option.any_some, isBlank_of_isNameChar hd, Bool.not_false, Bool.true_and, bne_iff_ne]
    rintro rfl
    exact absurd hd (by decide)
  plain := all_eq_true.mpr fun e he => by
    rw [Bool.and_eq_true, Bool.not_eq_true', bne_iff_ne]
    refine ⟨Bool.eq_false_iff.mpr fun hquote => ?_, ?_⟩
    · rw [isQuote, Bool.or_eq_true, beq_iff_eq, beq_iff_eq] at hquote
      rcases hquote with rfl | rfl <;> exact notMem_of_isPath c.dotted (by decide) (by decide) he
    · rintro rfl
      exact notMem_of_isPath c.dotted (by decide) (by decide) he
  first := has_eq_false_of_notMem (c := '(') (by decide) (notMem_of_isPath c.dotted (by decide) (by decide))
  last := by decide
  ended := by decide

theorem line_eq : c.line = c.frame.line c.args := by
  have hm : ((".connect(" : String).toList : Text) = ("." : Text) ++ "connect" ++ "(" := by decide
  rw [line, CallFrame.line, hm]
  simp only [frame, append_assoc, nil_append]
  rfl

end OldCall

/-! ## Reading a call -/

section Reading

variable {target : Target} {sender signal third : Text} (hsignal : signal.has "SIGNAL(" = true)

include hsignal

theorem ofConnect?_declared (ht : isDeclared third) {rest : List Text} (hr : rest.length ≤ 1) :
    Connection.ofConnect? target (sender :: signal :: third :: rest) = some <$> (do
      connectionTo target sender (← signature target signal)
        ⟨if third.has "SIGNAL(" then "self" else "", third, Text.commaList rest⟩) := by
  have hc : (decide (rest.length > 2) || !signal.has "SIGNAL(") = false := by
    rw [hsignal, decide_eq_false (by omega)]
    rfl
  simp only [Connection.ofConnect?, hc, ht, if_true, Bool.false_eq_true, if_false, map_eq_pure_bind, bind_assoc]

theorem ofConnect?_object (ht : isDeclared third = false) {fourth : Text} (hf : isDeclared fourth)
    {rest : List Text} (hr : rest.length ≤ 1) :
    Connection.ofConnect? target (sender :: signal :: third :: fourth :: rest) = some <$> (do
      connectionTo target sender (← signature target signal) ⟨third, fourth, Text.commaList rest⟩) := by
  have hc : (decide ((fourth :: rest).length > 2) || !signal.has "SIGNAL(") = false := by
    rw [hsignal, length_cons, decide_eq_false (by omega)]
    rfl
  simp only [Connection.ofConnect?, hc, ht, hf, if_true, Bool.false_eq_true, if_false, map_eq_pure_bind,
    bind_assoc]

theorem ofConnect?_callable (ht : isDeclared third = false) {rest : List Text} (hr : rest.length ≤ 1)
    (ho : ∀ arg ∈ rest, isDeclared arg = false) :
    Connection.ofConnect? target (sender :: signal :: third :: rest) = some <$> (do
      return connectionToCallable sender (← signature target signal) third (Text.commaList rest)) := by
  have hc : (decide (rest.length > 2) || !signal.has "SIGNAL(") = false := by
    rw [hsignal, decide_eq_false (by omega)]
    rfl
  cases rest with
  | nil =>
    simp only [Connection.ofConnect?, hc, ht, Bool.false_eq_true, if_false, map_eq_pure_bind, bind_assoc, pure_bind]
    rfl
  | cons fourth rest =>
    simp only [Connection.ofConnect?, hc, ht, ho fourth mem_cons_self, Bool.false_eq_true, if_false,
      map_eq_pure_bind, bind_assoc, pure_bind]

omit hsignal in
theorem connectionTo_pure {parts slot : List Text} {declaration : Text} (hp : signature target signal = pure parts)
    (hs : signature target declaration = pure slot) (receiver options : Text) :
    (do connectionTo target sender (← signature target signal) ⟨receiver, declaration, options⟩) =
      (pure ⟨sender, signatureName parts, signatureTypes parts, receiver, signatureName slot, signatureTypes slot,
        relayOf declaration, options⟩ : Run Connection) := by
  rw [hp, pure_bind, connectionTo, hs, pure_bind]

end Reading

/-! ## Writing a call -/

theorem signatureTypes_eq (name : SignalName) (types : List TypeName) :
    signatureTypes (name.text :: types.map TypeName.text) = Text.commaList (types.map TypeName.text) := by
  have hc : (Text.commaList (types.map TypeName.text)).has "::" = false :=
    has_eq_false_of_notMem (c := ':') (by decide)
      (notMem_commaList isName_of_mem_types (by decide) (by decide) (by decide))
  rw [signatureTypes]
  cases types with
  | nil => rfl
  | cons t types =>
    rw [if_pos (by simpa [signatureName] using name.typed), drop_one, tail_cons, replaceAll_of_not_has hc]

theorem wrapped_types (types : List TypeName) :
    Connection.wrapped "[" (Text.commaList (types.map TypeName.text)) "]" = bracketed types := by
  cases types with
  | nil => rfl
  | cons t types =>
    have hf : Text.commaList ((t :: types).map TypeName.text) ≠ [] := by
      have ht := ne_nil_of_isName t.name
      cases types <;> simp [Text.commaList, Text.join, ht]
    rw [Connection.wrapped, if_neg (by simpa using hf), bracketed, if_neg (by simp)]

namespace OldCall

variable (c : OldCall) {target : Target}

theorem commaList_option (s : Text) : Text.commaList (s :: c.option.toList.map PlainArgument.text) =
    s ++ Connection.wrapped ", " (Text.commaList (c.option.toList.map PlainArgument.text)) "" := by
  cases c.option with
  | none => simp [Text.commaList, Text.join, Connection.wrapped]
  | some p => simp [Text.commaList, Text.join, Connection.wrapped, p.facts.1.1]

theorem render_eq {conn : Connection} (hs : conn.sender = c.sender.text) (hsignal : conn.signal = c.signal.text)
    (ht : conn.signalTypes = Text.commaList (c.types.map TypeName.text))
    (hg : Connection.wrapped "" conn.receiver "." ++ conn.slot ++
      (if conn.relayed.isEmpty then [] else Connection.wrapped "[" conn.slotTypes "]") = c.goal.newStyle)
    (ho : conn.options = Text.commaList (c.option.toList.map PlainArgument.text)) :
    conn.render c.indent "connect" = c.newLine := by
  have hm : ((".connect(" : String).toList : Text) = ("." : Text) ++ ("connect" ++ "(") := by decide
  rw [Connection.render, newLine, commaList_option, ← hg, hm, hs, hsignal, ht, wrapped_types, ho]
  simp only [append_assoc]

theorem clean_of_isClear (hc : c.isClear target) :
    ∀ t ∈ (c.types ++ c.goal.types).map TypeName.text, Text.hasAny t (typePieces target) = false := by
  intro _ hm
  obtain ⟨t, ht, rfl⟩ := mem_map.mp hm
  have hco := hasAny_eq_false_iff.mp t.common
  cases target with
  | new => exact t.common
  | old =>
    rw [isClear, Bool.and_eq_true, Bool.or_eq_true, all_eq_true] at hc
    have ha := hc.2.resolve_left (by decide) t ht
    rw [Bool.not_eq_true', hasAny_eq_false_iff] at ha
    exact hasAny_eq_false_iff.mpr (forall_mem_cons.mpr ⟨hco _ (by decide), ha⟩)

theorem exists_ofConnect? (hc : c.isClear target) :
    ∃ conn, Connection.ofConnect? target c.args = some <$> pure conn ∧ conn.relayed = c.goal.relayed ∧
      conn.render c.indent "connect" = c.newLine := by
  have hcl := c.clean_of_isClear hc
  rw [map_append, forall_mem_append] at hcl
  obtain ⟨ht, hg⟩ := hcl
  have hsignal := has_signal_declaration c.signal.text (c.types.map TypeName.text)
  have hread : ∀ {name : SignalName} {types : List TypeName},
      (∀ t ∈ types.map TypeName.text, Text.hasAny t (typePieces target) = false) →
        signature target (declaration "SIGNAL" name.text (types.map TypeName.text)) =
          pure (name.text :: types.map TypeName.text) :=
    signature_declaration (SignalName.name _) isName_of_mem_types (by decide)
  have hd : ∀ keyword ∈ declarationKeywords, ∀ (name : SignalName) (types : List TypeName),
      isDeclared (declaration keyword name.text (types.map TypeName.text)) :=
    fun _ hk _ _ => isDeclared_declaration hk _ _
  have ho : (c.option.toList.map PlainArgument.text).length ≤ 1 := by
    cases c.option <;> simp
  have hot : ∀ arg ∈ c.option.toList.map PlainArgument.text, isDeclared arg = false := fun arg ha => by
    obtain ⟨p, -, rfl⟩ := mem_map.mp ha
    exact p.not_isDeclared
  have hc := (Bool.and_eq_true_iff.mp hc).1
  rw [args]
  cases hgo : c.goal with
  | slot object name types =>
    rw [hgo] at hc
    obtain ⟨slot, hs⟩ : ∃ parts, signature target (declaration "SLOT" name.text (types.map TypeName.text)) =
        pure (name.text :: parts) :=
      exists_signature_declaration name.name isName_of_mem_types (by decide)
    have hre : relayOf (declaration "SLOT" name.text (types.map TypeName.text)) = [] :=
      relayOf_slot (by simpa [Goal.isClear] using hc)
    have hr := @ofConnect?_object target c.sender.text _ _ hsignal object.not_isDeclared _
      (hd "SLOT" (by decide) name types) _ ho
    rw [connectionTo_pure (hread ht) hs] at hr
    refine ⟨_, hr, hre, c.render_eq rfl rfl (signatureTypes_eq c.signal c.types) ?_ rfl⟩
    rw [hgo, hre]
    simp [Goal.newStyle, Connection.wrapped, object.facts.1.1, signatureName]
  | signal object name types =>
    rw [hgo, Goal.types] at hg
    have hr := @ofConnect?_object target c.sender.text _ _ hsignal object.not_isDeclared _
      (hd "SIGNAL" (by decide) name types) _ ho
    rw [connectionTo_pure (hread ht) (hread hg)] at hr
    refine ⟨_, hr, relayOf_signal _ _, c.render_eq rfl rfl (signatureTypes_eq c.signal c.types) ?_ rfl⟩
    rw [hgo]
    dsimp only
    rw [relayOf_signal, signatureTypes_eq name types, wrapped_types, if_neg (by simp [declaration])]
    simp [Goal.newStyle, Connection.wrapped, object.facts.1.1, signatureName]
  | ownSignal name types =>
    rw [hgo, Goal.types] at hg
    have hr := @ofConnect?_declared target c.sender.text _ _ hsignal (hd "SIGNAL" (by decide) name types) _ ho
    rw [connectionTo_pure (hread ht) (hread hg)] at hr
    refine ⟨_, hr, relayOf_signal _ _, c.render_eq rfl rfl (signatureTypes_eq c.signal c.types) ?_ rfl⟩
    rw [hgo]
    dsimp only
    rw [relayOf_signal, signatureTypes_eq name types, wrapped_types, if_pos (has_signal_declaration _ _),
      if_neg (by simp [declaration])]
    simp [Goal.newStyle, Connection.wrapped, signatureName]
  | callable function =>
    have hr := @ofConnect?_callable target c.sender.text _ _ hsignal function.not_isDeclared _ ho hot
    rw [hread ht, pure_bind] at hr
    refine ⟨_, hr, rfl, c.render_eq rfl rfl (signatureTypes_eq c.signal c.types) ?_ rfl⟩
    rw [hgo]
    simp [Goal.newStyle, Connection.wrapped, connectionToCallable]

theorem updateCall_line (hc : c.isClear target) :
    ∃ conn : Connection, updateCall "connect" (Connection.ofConnect? target) c.line = pure (some (c.newLine, conn)) ∧
      conn.relayed = c.goal.relayed := by
  obtain ⟨conn, hco, hr, hre⟩ := c.exists_ofConnect? hc
  refine ⟨conn, ?_, hr⟩
  have hsignal : ∃ arg ∈ c.args, arg.has "SIGNAL(" :=
    ⟨_, mem_cons_of_mem _ mem_cons_self, has_signal_declaration _ _⟩
  rw [c.line_eq, c.frame.updateCall_line c.forall_mem_args hsignal hco, map_pure, ← hre]
  rfl

end OldCall

end QtMigration
