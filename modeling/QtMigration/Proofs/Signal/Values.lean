import QtMigration.Proofs.Signal.Arguments
import QtMigration.Proofs.Signal.Emitted
import QtMigration.Proofs.Signal.Overloads

/-!
# Proofs/Signal/Values — are the values of an emission kept as they are?

**The values are kept exactly if their pieces are set off by single blanks and the last one has as many
opening as closing parentheses** (`values_kept_iff`); values without commas and parentheses always are.
-/

namespace QtMigration

open List Text

/-! ## Cutting and joining -/

theorem join_cons_piece (sep : Text) (c : Char) (p : Text) (ps : List Text) :
    Text.join sep ((c :: p) :: ps) = c :: Text.join sep (p :: ps) := by
  cases ps <;> rfl

theorem outerPieces_comma (s : Text) :
    outerPieces 0 none (',' :: s) = (outerPieces 0 none s).map fun r => ([], r.1 :: r.2) := rfl

theorem onePiece_of_notMem : ∀ {s : Text}, ',' ∉ s → '(' ∉ s → OnePiece s
  | [], _, _ => fun rest => by
    rw [nil_append]
    cases outerPieces 0 none rest <;> rfl
  | c :: s, hco, hop => fun rest => by
    obtain ⟨hc, hco⟩ := ne_and_not_mem_of_not_mem_cons hco
    obtain ⟨ho, hop⟩ := ne_and_not_mem_of_not_mem_cons hop
    rw [cons_append, outerPieces, if_neg (by simpa using hc.symm), if_neg (by simpa using ho.symm),
      onePiece_of_notMem hco hop rest, consPiece_map]

theorem splitGo_of_notMem {c : Char} {cs : Text} {s : Text} : ∀ {passed : Text}, c ∉ passed →
    Text.splitGo (c :: cs) 0 (passed ++ s) = (passed ++ (Text.splitGo (c :: cs) 0 s).1, (Text.splitGo (c :: cs) 0 s).2)
  | [], _ => rfl
  | d :: passed, h => by
    obtain ⟨hd, hp⟩ := ne_and_not_mem_of_not_mem_cons h
    rw [cons_append, Text.splitGo, if_neg (by simpa [List.isPrefixOf] using fun h => absurd h hd),
      splitGo_of_notMem hp]
    rfl

theorem exists_last_close {s : Text} (h : ')' ∈ s) : ∃ front rest, s = front ++ ')' :: rest ∧ ')' ∉ rest := by
  obtain ⟨rest, front, hs, hr⟩ := eq_append_cons_of_mem (mem_reverse.mpr h)
  refine ⟨front.reverse, rest.reverse, ?_, by simpa using hr⟩
  rw [← reverse_reverse s, hs]
  simp

/-- The piece begins with one blank and has no other at its ends. -/
def isSetOff (piece : Text) : Bool := piece == ' ' :: piece.trim

theorem isSetOff_iff {piece : Text} : isSetOff piece ↔ piece = ' ' :: piece.trim := by
  rw [isSetOff, beq_iff_eq]

theorem trimLeft_append_cons {c : Char} (hc : Text.isBlank c = false) (s t : Text) :
    Text.trimLeft (s ++ c :: t) = s.trimLeft ++ c :: t := by
  rw [trimLeft_append, trimLeft_cons hc]
  split
  next he => rw [List.isEmpty_iff.mp he, nil_append]
  · rfl

theorem trimLeft_cons_trim (s : Text) : Text.trimLeft (' ' :: s.trim) = s.trim := by
  rw [Text.trimLeft, Text.trimLeftWhile, dropWhile_cons_of_pos (by decide)]
  cases ht : s.trim with
  | nil => rfl
  | cons c t =>
    refine trimLeft_cons ?_ t
    obtain ⟨rest, hr⟩ := trimRight_isPrefix s.trimLeft
    rw [← Text.trim, ht, cons_append] at hr
    exact blank_eq_false_of_trimLeft hr.symm

theorem forall_isSetOff_iff : ∀ {pieces : List Text}, pieces ≠ [] →
    ((∀ piece ∈ pieces, isSetOff piece) ↔
      ' ' :: Text.commaList (pieces.map Text.trim) = Text.join "," pieces)
  | [], h => absurd rfl h
  | [piece], _ => by
    rw [forall_mem_singleton, isSetOff_iff]
    exact eq_comm
  | piece :: next :: pieces, _ => by
    have ih := forall_isSetOff_iff (cons_ne_nil next pieces)
    have hli : Text.commaList ((piece :: next :: pieces).map Text.trim) =
        piece.trim ++ ',' :: ' ' :: Text.commaList ((next :: pieces).map Text.trim) := by
      rw [map_cons, map_cons, commaList_cons_cons]
    have hj : Text.join "," (piece :: next :: pieces) = piece ++ ',' :: Text.join "," (next :: pieces) := by
      rw [join_cons _ _ (cons_ne_nil _ _), append_assoc]
      rfl
    rw [forall_mem_cons, ih, isSetOff_iff, hli, hj]
    constructor
    · rintro ⟨hp, hr⟩
      rw [← hr]
      conv_rhs => rw [hp]
      rfl
    · intro heq
      -- without the blanks before it, the piece is its trimmed text and maybe more blanks
      have hl : piece.trim ++ ',' :: ' ' :: Text.commaList ((next :: pieces).map Text.trim) =
          piece.trimLeft ++ ',' :: Text.join "," (next :: pieces) := by
        have ht := congrArg Text.trimLeft heq
        rwa [trimLeft_append_cons (by decide), ← cons_append, trimLeft_append_cons (by decide),
          trimLeft_cons_trim] at ht
      obtain ⟨blanks, hbl, ha⟩ := exists_trimRight piece.trimLeft
      rw [hbl, append_assoc] at hl
      have hb := append_cancel_left hl
      cases blanks with
      | nil =>
        have hr := (cons.inj hb).2
        rw [← hr] at heq
        exact ⟨(@append_cancel_right _ (' ' :: piece.trim) _ _ heq).symm, hr⟩
      | cons b blanks =>
        obtain ⟨rfl, -⟩ := cons.inj hb
        exact absurd (all_eq_true.mp ha _ mem_cons_self) (by decide)

/-! ## Values -/

/-- **A value**: a name, or a string on one row, without a backslash and without its own quote. -/
inductive Value
  | name (text : Text) (h : isName text = true)
  | string (quote : Char) (text : Text) (hquote : isQuote quote = true)
    (h : (text.all fun c => c != quote && c != '\\' && c != '\n') = true)

namespace Value

def text : Value → Text
  | name text _ => text
  | string quote text _ _ => quote :: (text ++ [quote])

def isPlain (v : Value) : Bool := v.text.all fun c => c != ',' && c != '(' && c != ')'

end Value

theorem notMem_of_isPlain {v : Value} (h : v.isPlain) :
    ',' ∉ v.text ∧ '(' ∉ v.text ∧ ')' ∉ v.text := by
  rw [Value.isPlain, all_eq_true] at h
  refine ⟨fun hm => ?_, fun hm => ?_, fun hm => ?_⟩ <;> exact absurd (h _ hm) (by decide)

def isSolidChar (c : Char) : Bool := !Text.isBlank c && c != '(' && c != ')'

def isSolid (s : Text) : Bool := s.head?.any isSolidChar && s.getLast?.any isSolidChar

theorem isSolid_append {a b : Text} (c : Text) (ha : isSolid a) (hb : isSolid b) :
    isSolid (a ++ (c ++ b)) := by
  rw [isSolid, Bool.and_eq_true] at ha hb ⊢
  cases a with
  | nil => exact absurd ha.1 (by simp)
  | cons x a =>
    cases b using List.reverseRecOn with
    | nil => exact absurd hb.2 (by simp)
    | append_singleton b y =>
      refine ⟨ha.1, ?_⟩
      rw [← append_assoc, ← append_assoc, getLast?_concat]
      simpa using hb.2

theorem isSolid_of_isName {s : Text} (h : isName s) : isSolid s := by
  have hs : ∀ c ∈ s, isSolidChar c := fun c hc => by
    have hp : ∀ e : Char, isNameChar e = false → (c != e) := fun e he => by
      rw [bne_iff_ne]
      rintro rfl
      exact notMem_of_isName h he hc
    rw [isSolidChar, isBlank_of_mem_name h hc, hp '(' (by decide), hp ')' (by decide)]
    rfl
  have hne := ne_nil_of_isName h
  rw [isSolid, head?_eq_some_head hne, getLast?_eq_some_getLast hne, Option.any_some, Option.any_some,
    hs _ (head_mem hne), hs _ (getLast_mem hne)]
  rfl

theorem Value.isSolid_text : ∀ v : Value, isSolid v.text
  | name _ h => isSolid_of_isName h
  | string quote text hq _ => by
    have hs : isSolidChar quote := by
      rw [isQuote, Bool.or_eq_true, beq_iff_eq, beq_iff_eq] at hq
      rcases hq with rfl | rfl <;> decide
    rw [isSolid, Value.text, head?_cons, Option.any_some, ← cons_append, getLast?_concat,
      Option.any_some, hs]
    rfl

section Solid

variable {s : Text} (h : isSolid s = true)

include h

theorem trim_of_isSolid : s.trim = s := by
  rw [isSolid, Bool.and_eq_true] at h
  have hl : s.trimLeft = s := by
    cases s with
    | nil => rfl
    | cons c s =>
      have hc := h.1
      simp only [isSolidChar, head?_cons, Option.any_some, Bool.and_eq_true, Bool.not_eq_true'] at hc
      exact trimLeft_cons hc.1.1 s
  rw [Text.trim, hl]
  cases s using List.reverseRecOn with
  | nil => rfl
  | append_singleton s c =>
    have hc := h.2
    simp only [isSolidChar, getLast?_concat, Option.any_some, Bool.and_eq_true, Bool.not_eq_true'] at hc
    exact trimRight_concat hc.1.1 s

theorem isSetOff_of_isSolid : isSetOff (' ' :: s) := by
  rw [isSetOff_iff, trim_cons_blank (by decide), trim_of_isSolid h]

theorem ne_nil_of_isSolid : s ≠ [] := by
  rintro rfl
  exact absurd h (by decide)

theorem ne_append_close_of_isSolid (t : Text) : s ≠ t ++ [')'] := by
  rintro rfl
  rw [isSolid, getLast?_concat, Bool.and_eq_true] at h
  exact absurd h.2 (by decide)

end Solid

theorem isSolid_commaList : ∀ {args : List Text}, args ≠ [] → (∀ a ∈ args, isSolid a) →
    isSolid (Text.commaList args)
  | [], h, _ => absurd rfl h
  | [a], _, h => h a mem_cons_self
  | a :: b :: args, _, h => by
    obtain ⟨ha, har⟩ := forall_mem_cons.mp h
    rw [commaList_cons_cons]
    exact isSolid_append [',', ' '] ha (isSolid_commaList (cons_ne_nil b args) har)

theorem isSetOff_of_mem_joinLambdas : ∀ {begun : Option Text} {ps : List Text},
    (∀ s ∈ begun.toList ++ ps, ∃ t, s = ' ' :: t ∧ isSolid t) →
      ∀ piece ∈ joinLambdas begun ps, isSetOff piece
  | none, [], _ => by simp [joinLambdas]
  | some begun, [], h => by
    obtain ⟨t, rfl, ht⟩ := h begun (by simp)
    simpa [joinLambdas] using isSetOff_of_isSolid ht
  | none, p :: ps, h => by
    rw [joinLambdas]
    split
    · exact isSetOff_of_mem_joinLambdas h
    · obtain ⟨⟨t, rfl, ht⟩, hps⟩ := forall_mem_cons.mp h
      exact forall_mem_cons.mpr ⟨isSetOff_of_isSolid ht, isSetOff_of_mem_joinLambdas hps⟩
  | some begun, p :: ps, h => by
    obtain ⟨⟨t, rfl, ht⟩, hps⟩ := forall_mem_cons.mp h
    obtain ⟨⟨u, rfl, hu⟩, hr⟩ := forall_mem_cons.mp hps
    have hl : ' ' :: t ++ "," ++ ' ' :: u = ' ' :: (t ++ ([',', ' '] ++ u)) := by simp
    have hs := isSolid_append [',', ' '] ht hu
    rw [joinLambdas, hl]
    split
    · exact forall_mem_cons.mpr ⟨isSetOff_of_isSolid hs, isSetOff_of_mem_joinLambdas hr⟩
    · exact isSetOff_of_mem_joinLambdas (forall_mem_cons.mpr ⟨⟨_, rfl, hs⟩, hr⟩)

/-! ## Writing the values -/

theorem dropEmptyValues_cons (signal : Text) (args : List Text) :
    ∃ kept, dropEmptyValues (signal :: args) = signal :: kept ∧ (kept = args ∨ kept = [] ∧ args = [("()" : Text)]) := by
  cases args with
  | nil => exact ⟨[], rfl, .inl rfl⟩
  | cons v args =>
    cases args with
    | cons w args => exact ⟨v :: w :: args, rfl, .inl rfl⟩
    | nil =>
      rw [dropEmptyValues]
      split
      next he => exact ⟨[], rfl, .inr ⟨rfl, by rw [eq_of_beq he]⟩⟩
      · exact ⟨[v], rfl, .inl rfl⟩

/-- **What is written for the values is what was sent**, if the last piece has no parentheses too many and the
trimmed pieces make up what was sent. -/
theorem written_eq_iff {sent last signal : Text} (hs : isSolid sent) (front : List Text) :
    Text.commaList ((dropEmptyValues (signal :: (front ++ [balanceLast last]))).drop 1) ++ ")" ++ surplus last ++ "\n" =
        sent ++ ")\n" ↔
      last.parenExcess = 0 ∧ Text.commaList (front ++ [last]) = sent := by
  obtain ⟨kept, hd, hke⟩ := dropEmptyValues_cons signal (front ++ [balanceLast last])
  rw [hd, drop_one, tail_cons]
  constructor
  · intro heq
    have hc : Text.commaList kept ++ surplus last = sent := by
      have hsu : (")" : Text) ++ surplus last = surplus last ++ ")" := close_surplus last
      have hli : (Text.commaList kept ++ surplus last) ++ ")\n" = sent ++ ")\n" := by
        rw [← heq, append_assoc (Text.commaList kept) ")", hsu]
        simp
      exact append_cancel_right hli
    have hz : last.parenExcess = 0 := by
      by_contra hne
      obtain ⟨k, hk⟩ := Nat.exists_eq_succ_of_ne_zero (Int.natAbs_ne_zero.mpr hne)
      rw [surplus, hk, replicate_succ', ← append_assoc] at hc
      exact ne_append_close_of_isSolid hs _ hc.symm
    have hb : balanceLast last = last := by rw [balanceLast, if_neg (by omega)]
    have hn : surplus last = [] := by rw [surplus, hz]; rfl
    rw [hn, append_nil] at hc
    refine ⟨hz, ?_⟩
    rcases hke with rfl | ⟨rfl, -⟩
    · rw [← hc, hb]
    · exact absurd hc.symm (ne_nil_of_isSolid hs)
  · rintro ⟨hz, hl⟩
    have hb : balanceLast last = last := by rw [balanceLast, if_neg (by omega)]
    have hn : surplus last = [] := by rw [surplus, hz]; rfl
    rw [hb] at hke
    rcases hke with rfl | ⟨-, ha⟩
    · rw [hl, hn]
      simp
    · rw [ha] at hl
      rw [← hl] at hs
      exact absurd hs (by decide)

/-! ## Emissions with values -/

/-- **An old-style emission with values**, of a signal without types. -/
structure OldEmission where
  indent : Text
  /-- The object that emits the signal. -/
  path : Text
  signal : Text
  values : List Value
  blank : ∀ c ∈ indent, isRowBlank c = true
  dotted : isPath path = true
  named : isName signal = true
  filled : values ≠ []

namespace OldEmission

variable (e : OldEmission)

def sent : Text := Text.commaList (e.values.map Value.text)

def declared : Text := declaration "SIGNAL" e.signal []

def line : Text := e.indent ++ e.path ++ ".emit(" ++ Text.commaList (e.declared :: e.values.map Value.text) ++ ")\n"

/-- **The line in the new style**, with the values as they are. -/
def newLine : Text := e.indent ++ e.path ++ "." ++ e.signal ++ ".emit(" ++ e.sent ++ ")\n"

/-- The pieces that a text of values is cut into, those of one `lambda` put together. -/
def pieces? (sent : Text) : Option (List Text) :=
  (outerPieces 0 none (' ' :: sent)).map fun r => joinLambdas none (r.1 :: r.2)

/-- **The values are kept**: they have no emission in them, every piece of them is set off by one blank, and the
last piece has as many opening as closing parentheses. -/
def isVerbatim : Bool :=
  !e.sent.has ".emit(" && (pieces? e.sent).any fun pieces =>
    pieces.all isSetOff && pieces.getLast?.any fun last => last.trim.parenExcess == 0

theorem isSolid_sent : isSolid e.sent := by
  refine isSolid_commaList (by simpa using e.filled) fun a ha => ?_
  obtain ⟨v, -, rfl⟩ := mem_map.mp ha
  exact v.isSolid_text

theorem isArgument_declared : IsArgument e.declared :=
  isArgument_declaration (by decide) e.named (by simp)

theorem signature_declared (target : Target) : signature target e.declared = pure [e.signal] :=
  signature_declaration e.named (by simp) (by decide) (by simp)

theorem has_before : Text.has (e.indent ++ e.path) ".emit(" = false := by
  refine has_eq_false_of_notMem (c := '(') (by decide) ?_
  rw [mem_append, not_or]
  exact ⟨fun hm => absurd (e.blank _ hm) (by decide), notMem_of_isPath e.dotted (by decide) (by decide)⟩

theorem line_eq : e.line = (e.indent ++ e.path) ++ ((".emit" : Text) ++ ['('] ++
    ((e.declared ++ [',', ' ']) ++ (e.sent ++ ')' :: ['\n']))) := by
  obtain ⟨v, vs, hv⟩ := exists_cons_of_ne_nil e.filled
  rw [line, sent, hv, map_cons, commaList_cons_cons]
  simp

theorem isCode_line : e.line.isCode := by
  rw [line_eq, append_assoc]
  refine isCode_path e.dotted (fun c hc => ?_) _
  have hr := e.blank c hc
  by_contra hb
  rw [isRowBlank_of_isBlank (Bool.eq_false_iff.mpr hb)] at hr
  cases hr

theorem emitsNothing_line : emitsNothing e.line = false := by
  have he : e.line.has ".emit(" := by
    rw [line_eq]
    exact has_iff_infix.mpr ⟨_, _, append_assoc _ _ _⟩
  have hs : e.line.has "SIGNAL(" := by
    refine has_iff_infix.mpr (( has_iff_infix.mp (has_signal_declaration e.signal [])).trans ?_)
    refine ⟨e.indent ++ e.path ++ ".emit(", [',', ' '] ++ (e.sent ++ ')' :: ['\n']), ?_⟩
    rw [line_eq, declared]
    simp
  rw [emitsNothing, e.isCode_line, he, hs]
  rfl

theorem callContent?_line : callContent? e.line ".emit(" =
    Text.beforeLast? (e.declared ++ ',' :: ' ' :: Text.firstPiece (e.sent ++ ")\n") ".emit(") ')' := by
  have hm : ((".emit(" : String).toList : Text) = (".emit" : Text) ++ ['('] := by decide
  have hd : '.' ∉ e.declared ++ [',', ' '] := by
    rw [mem_append, not_or]
    exact ⟨notMem_declaration (by decide) e.named (by simp), by decide⟩
  have hs := @Text.splitGo_append ((".emit" : Text) ++ ['(']) (by simp)
    ((e.declared ++ [',', ' ']) ++ (e.sent ++ ')' :: ['\n'])) (e.indent ++ e.path)
    fun k hk => not_prefix_drop_of_not_has (by decide) (by rw [← hm]; exact e.has_before) hk
  have hp : Text.splitGo ((".emit" : Text) ++ ['(']) 0 ((e.declared ++ [',', ' ']) ++ (e.sent ++ ')' :: ['\n'])) = _ :=
    @splitGo_of_notMem '.' "emit(" _ _ hd
  rw [callContent?, line_eq, hm, Text.splitOn, hs, hp, Text.firstPiece]
  simp

theorem firstPiece_line : e.line.firstPiece ".emit(" = e.indent ++ e.path := by
  have hm : ((".emit(" : String).toList : Text) = (".emit" : Text) ++ ['('] := by decide
  have hb := e.has_before
  rw [hm] at hb
  rw [line_eq, hm, firstPiece_append (by decide) hb]

/-! ## What is read and written -/

theorem splitArguments_pieces {sent : Text} {pieces : List Text} (h : pieces? sent = some pieces) :
    splitArguments (e.declared ++ ',' :: ' ' :: sent) = .ok (e.declared :: pieces.map Text.trim) ∧ pieces ≠ [] ∧
      Text.join "," pieces = ' ' :: sent := by
  obtain ⟨⟨p, ps⟩, hcut, rfl⟩ := Option.map_eq_some_iff.mp h
  obtain ⟨hne, hj⟩ := joinLambdas_spec (cons_ne_nil p ps)
  have hc : outerPieces 0 none (',' :: ' ' :: sent) = some ([], p :: ps) := by
    rw [outerPieces_comma, hcut]
    rfl
  refine ⟨?_, hne, hj.trans (join_outerPieces hcut)⟩
  rw [splitArguments, e.isArgument_declared.onePiece, hc]
  dsimp only [Option.map_some]
  rw [append_nil, joinLambdas, e.isArgument_declared.noLambda, Bool.false_and, if_neg (by decide), trimArguments]
  · rw [map_cons, e.isArgument_declared.trimmed]
  · rintro p hp
    exact absurd (cons.inj hp).2 hne

theorem splitArguments_unclosed {sent : Text} (h : pieces? sent = none) :
    splitArguments (e.declared ++ ',' :: ' ' :: sent) = .error .textEnds := by
  have hc : outerPieces 0 none (' ' :: sent) = none := Option.map_eq_none_iff.mp h
  rw [splitArguments, e.isArgument_declared.onePiece, outerPieces_comma, hc]
  rfl

theorem emissionLine_declared (target : Target) (front : List Text) (last : Text) :
    emissionLine target (e.indent ++ e.path) (e.declared :: (front ++ [last])) =
      pure (e.indent ++ e.path ++ "." ++ e.signal ++ ".emit(" ++ (Text.commaList ((dropEmptyValues
        (e.declared :: (front ++ [balanceLast last]))).drop 1) ++ ")" ++ surplus last ++ "\n"), e.declared) := by
  have hl : (e.declared :: (front ++ [last])).getLast? = some last := by
    rw [← cons_append, getLast?_concat]
  have hf : (e.declared :: (front ++ [last])).dropLast = e.declared :: front := by
    rw [← cons_append, dropLast_concat]
  obtain ⟨kept, hd, -⟩ := dropEmptyValues_cons e.declared (front ++ [balanceLast last])
  rw [emissionLine, hl]
  dsimp only
  rw [hf, cons_append, hd, headD_cons, e.signature_declared, pure_bind]
  simp only [append_assoc]
  rfl

theorem updateEmission_line (target : Target) {content : Text}
    (hc : callContent? e.line ".emit(" = some content) :
    updateEmission target e.line = (do
      let args ← splitArguments content
      return some (← emissionLine target (e.indent ++ e.path) args)) := by
  have hg : (!e.line.isCode || !e.line.has ".emit(" || !e.line.has "SIGNAL(") = false := e.emitsNothing_line
  rw [updateEmission, hg, if_neg (by decide), hc, e.firstPiece_line]

theorem emitted_eq_newLine_iff {target : Target} {sent last : Text} {front : List Text}
    (hc : callContent? e.line ".emit(" = some (e.declared ++ ',' :: ' ' :: sent))
    (hp : pieces? sent = some (front ++ [last])) :
    emitted target e.line = e.newLine ↔
      last.trim.parenExcess = 0 ∧ Text.commaList ((front ++ [last]).map Text.trim) = e.sent := by
  have ha := (e.splitArguments_pieces hp).1
  rw [map_append, map_singleton] at ha ⊢
  have hu : (updateEmission target e.line).outcome = .ok (some (e.indent ++ e.path ++ "." ++ e.signal ++ ".emit(" ++
      (Text.commaList ((dropEmptyValues (e.declared :: (front.map Text.trim ++ [balanceLast last.trim]))).drop 1) ++ ")" ++
        surplus last.trim ++ "\n"), e.declared)) := by
    rw [e.updateEmission_line target hc]
    refine Run.bind_eq_ok.mpr ⟨_, ha, Run.bind_eq_ok.mpr ⟨_, ?_, rfl⟩⟩
    exact congrArg Run.outcome (e.emissionLine_declared target _ _)
  have hn : e.newLine = e.indent ++ e.path ++ "." ++ e.signal ++ ".emit(" ++ (e.sent ++ ")\n") := by
    rw [newLine, append_assoc _ e.sent]
  rw [emitted_eq hu, hn, append_right_inj]
  exact written_eq_iff e.isSolid_sent _

theorem emitted_ne_newLine {target : Target} (h : ∀ r, (updateEmission target e.line).outcome ≠ .ok (some r)) :
    emitted target e.line ≠ e.newLine := by
  have hs : emitted target e.line = e.line := by
    rw [emitted]
    split
    next heq => exact absurd heq (h _)
    · rfl
  intro heq
  have hl := congrArg List.length (hs.symm.trans heq)
  rw [line_eq, newLine, declared, declaration, spelling] at hl
  simp at hl
  omega

theorem callContent?_cases : (∃ sent rest, Text.firstPiece (e.sent ++ ")\n") ".emit(" = sent ++ ')' :: rest ∧
      ')' ∉ rest ∧ callContent? e.line ".emit(" = some (e.declared ++ ',' :: ' ' :: sent)) ∨
    ∃ content, callContent? e.line ".emit(" = some content ∧ splitArguments content = .error .textEnds := by
  rw [e.callContent?_line]
  generalize Text.firstPiece (e.sent ++ ")\n") ".emit(" = piece
  by_cases hc : ')' ∈ piece
  · obtain ⟨sent, rest, rfl, hr⟩ := exists_last_close hc
    refine .inl ⟨sent, rest, rfl, hr, ?_⟩
    rw [← cons_append, ← cons_append, ← append_assoc, beforeLast?_append hr]
  · have ho : e.declared = "SIGNAL" ++ '(' :: '"' :: (spelling e.signal [] ++ '"' :: []) ++ [')'] := by
      simp [declared, declaration]
    refine .inr ⟨"SIGNAL" ++ '(' :: '"' :: (spelling e.signal [] ++ '"' :: []), ?_, ?_⟩
    · rw [ho, append_assoc, singleton_append, beforeLast?_append (by simp [hc])]
    · have hk : OnePiece ("SIGNAL" : Text) := .of_isNested (by decide) (by decide) (by decide)
      have hq : '"' ∉ spelling e.signal [] := notMem_spelling e.named (by simp) (by decide) (by decide)
      have hs := outerPieces_string 0 hq []
      have hp : ∀ t, outerPieces 0 none ('(' :: '"' :: t) =
          consPiece '(' (consPiece '"' (outerPieces 1 (some '"') t)) := fun _ => rfl
      rw [splitArguments, hk, hp, hs]
      rfl

theorem updateEmission_ne_some {target : Target} {content : Text} {failure : Failure}
    (hc : callContent? e.line ".emit(" = some content) (hb : splitArguments content = .error failure)
    (r : Text × Text) : (updateEmission target e.line).outcome ≠ .ok (some r) := by
  intro hok
  rw [e.updateEmission_line target hc] at hok
  obtain ⟨args, ha, -⟩ := Run.bind_eq_ok.mp hok
  cases hb.symm.trans ha

theorem emitted_ne_newLine_of_has (target : Target) (h : e.sent.has ".emit(") :
    emitted target e.line ≠ e.newLine := by
  rcases e.callContent?_cases with ⟨sent, rest, hpi, -, hc⟩ | ⟨content, hc, hb⟩
  · cases hp : pieces? sent with
    | none => exact e.emitted_ne_newLine (e.updateEmission_ne_some hc (e.splitArguments_unclosed hp))
    | some pieces =>
      obtain ⟨-, hne, hj⟩ := e.splitArguments_pieces hp
      obtain ⟨front, last, rfl⟩ := (eq_nil_or_concat pieces).resolve_left hne
      rw [concat_eq_append] at hp hj
      rw [Ne, e.emitted_eq_newLine_iff hc hp]
      rintro ⟨-, hli⟩
      -- no piece has an emission in it, for they are cut from the text before the first one
      have hl : Text.has (' ' :: sent) ".emit(" = false := by
        have hf := @Text.splitGo_lacks ".emit(" (by decide) 0 (e.sent ++ ")\n") _ mem_cons_self
        rw [← Text.firstPiece, hpi] at hf
        refine has_eq_false_iff.mpr fun hin => ?_
        rcases infix_cons_iff.mp hin with hpre | hin
        · exact absurd (cons_prefix_cons.mp hpre).1 (by decide)
        · exact hf (hin.trans (prefix_append _ _).isInfix)
      rw [← hli, has_commaList (by decide) (by decide) (by decide), any_map] at h
      obtain ⟨piece, hm, hh⟩ := any_eq_true.mp h
      have hin := ( has_iff_infix.mp hh).trans (( trim_infix piece).trans (infix_join_of_mem "," hm))
      rw [hj] at hin
      exact has_eq_false_iff.mp hl hin
  · exact e.emitted_ne_newLine (e.updateEmission_ne_some hc hb)

theorem callContent?_of_lacks (h : e.sent.has ".emit(" = false) :
    callContent? e.line ".emit(" = some (e.declared ++ ',' :: ' ' :: e.sent) := by
  have hl : Text.has (e.sent ++ ")\n") ".emit(" = false :=
    @Text.has_append_eq_false _ _ ".emit" '(' h (by decide)
  have hw : Text.firstPiece (e.sent ++ ")\n") ".emit(" = e.sent ++ ")\n" := by
    rw [Text.firstPiece, splitGo_of_not_has hl]
  have hc : e.declared ++ ',' :: ' ' :: (e.sent ++ ")\n") = (e.declared ++ ',' :: ' ' :: e.sent) ++ ')' :: ['\n'] := by
    simp
  rw [e.callContent?_line, hw, hc, beforeLast?_append (by decide)]

theorem emitted_line (target : Target) : emitted target e.line = e.newLine ↔ e.isVerbatim := by
  cases he : e.sent.has ".emit(" with
  | true =>
    rw [isVerbatim, he]
    exact iff_of_false (e.emitted_ne_newLine_of_has target he) (by simp)
  | false =>
    have hc := e.callContent?_of_lacks he
    rw [isVerbatim, he]
    cases hp : pieces? e.sent with
    | none =>
      exact iff_of_false (e.emitted_ne_newLine (e.updateEmission_ne_some hc (e.splitArguments_unclosed hp)))
        (by simp)
    | some pieces =>
      obtain ⟨-, hne, hj⟩ := e.splitArguments_pieces hp
      have hs := forall_isSetOff_iff hne
      obtain ⟨front, last, rfl⟩ := (eq_nil_or_concat pieces).resolve_left hne
      rw [concat_eq_append] at hp hj hs ⊢
      rw [hj, cons.injEq, eq_self, true_and] at hs
      rw [e.emitted_eq_newLine_iff hc hp, ← hs, Option.any_some, Bool.not_false, Bool.true_and,
        Bool.and_eq_true, all_eq_true, getLast?_concat, Option.any_some, beq_iff_eq]
      exact and_comm

/-! ## Values without commas and parentheses -/

theorem pieces?_of_isPlain (h : ∀ v ∈ e.values, v.isPlain) :
    pieces? e.sent = some (joinLambdas none (e.values.map fun v => ' ' :: v.text)) := by
  obtain ⟨v, vs, hva⟩ := exists_cons_of_ne_nil e.filled
  have hs : ' ' :: e.sent = Text.commaList ((' ' :: v.text) :: vs.map Value.text) := by
    rw [sent, hva, map_cons, Text.commaList, Text.commaList, join_cons_piece]
  have ho : ∀ t ∈ (' ' :: v.text) :: vs.map Value.text, OnePiece t := by
    rw [hva] at h
    obtain ⟨hv, hvs⟩ := forall_mem_cons.mp h
    refine forall_mem_cons.mpr ⟨?_, fun t ht => ?_⟩
    · exact onePiece_of_notMem (by simp [(notMem_of_isPlain hv).1]) (by simp [(notMem_of_isPlain hv).2.1])
    · obtain ⟨w, hw, rfl⟩ := mem_map.mp ht
      exact onePiece_of_notMem (notMem_of_isPlain (hvs w hw)).1 (notMem_of_isPlain (hvs w hw)).2.1
  rw [pieces?, hs, outerPieces_commaList _ ho, hva, map_map]
  rfl

theorem isVerbatim_of_isPlain (h : ∀ v ∈ e.values, v.isPlain) : e.isVerbatim := by
  have hpi := e.pieces?_of_isPlain h
  obtain ⟨-, hne, hj⟩ := e.splitArguments_pieces hpi
  have hp : ∀ c ∈ ' ' :: e.sent, c ≠ '(' ∧ c ≠ ')' := by
    refine forall_mem_cons.mpr ⟨by decide, forall_mem_commaList (by decide) (by decide) fun t ht c hc => ?_⟩
    obtain ⟨v, hv, rfl⟩ := mem_map.mp ht
    obtain ⟨-, ho, hcl⟩ := notMem_of_isPlain (h v hv)
    exact ⟨fun heq => ho (heq ▸ hc), fun heq => hcl (heq ▸ hc)⟩
  have he : e.sent.has ".emit(" = false :=
    has_eq_false_of_notMem (c := '(') (by decide) fun hm => (hp _ (mem_cons_of_mem _ hm)).1 rfl
  have hse : ∀ piece ∈ joinLambdas none (e.values.map fun v => ' ' :: v.text), isSetOff piece := by
    refine isSetOff_of_mem_joinLambdas fun s hs => ?_
    obtain ⟨v, -, rfl⟩ := mem_map.mp hs
    exact ⟨v.text, rfl, v.isSolid_text⟩
  generalize joinLambdas none (e.values.map fun v => ' ' :: v.text) = pieces at hpi hne hj hse
  have hl : (pieces.getLast hne).trim.parenExcess = 0 := by
    have hin := ( trim_infix _).trans (infix_join_of_mem "," (getLast_mem hne))
    rw [hj] at hin
    have hco : ∀ c, c = '(' ∨ c = ')' → (pieces.getLast hne).trim.count c = 0 := fun c hc =>
      count_eq_zero.mpr fun hm => hc.elim (hp c (hin.subset hm)).1 (hp c (hin.subset hm)).2
    rw [Text.parenExcess, hco _ (.inl rfl), hco _ (.inr rfl)]
    rfl
  rw [isVerbatim, he, hpi, Option.any_some, getLast?_eq_some_getLast hne, Option.any_some, hl,
    all_eq_true.mpr hse]
  rfl

/-! ## A whole source -/

theorem emitAt_line (target : Target) (h : e.isVerbatim) (hc : opensClass e.newLine = false)
    {before : List Text} (ho : ClassOpen before) (behind : List Text) :
    ∃ grown n, Grown before grown ∧ grown.length = before.length + n ∧
      (emitAt target before.length (before ++ e.line :: behind)).outcome = .ok ⟨grown ++ e.newLine :: behind, n⟩ := by
  have hnew := (e.emitted_line target).mpr h
  obtain ⟨⟨line', signal⟩, hu⟩ : ∃ r, (updateEmission target e.line).outcome = .ok (some r) := by
    by_contra hno
    exact e.emitted_ne_newLine (not_exists.mp hno) hnew
  obtain rfl : line' = e.newLine := (emitted_eq hu).symm.trans hnew
  obtain ⟨-, hco, parts, hp, hn⟩ := updateEmission_spec hu
  obtain ⟨grown, n, hg, hl, hd⟩ := declareSignal_open behind hp ho hc hco hn
  refine ⟨grown, n, hg, hl, ?_⟩
  have hli : (before ++ e.line :: behind)[before.length]? = some e.line := by simp
  rw [emitAt_eq hli]
  refine Run.bind_eq_ok.mpr ⟨_, hu, ?_⟩
  dsimp only
  rw [set_append_right _ _ (Nat.le_refl _), Nat.sub_self, set_cons_zero]
  exact hd

end OldEmission

/-- **Every emission keeps its values**, stands in a class and opens none. -/
def KeepsValues (target : Target) (lines : List Text) : Prop :=
  ∀ front line back, lines = front ++ line :: back → emitsNothing line = false →
    ∃ e : OldEmission, line = e.line ∧ e.isVerbatim = true ∧ opensClass e.newLine = false ∧
      ClassOpen (front.map (emitted target))

theorem KeepsValues.visitLines_end {target : Target} : ∀ {rest done before : List Text} (declared : Bool),
    KeepsValues target (done ++ rest) → Grown (done.map (emitted target)) before →
      ∃ st, (visitLines (emitAt target) rest.length before.length ⟨before ++ rest, declared⟩).outcome = .ok st ∧
        Grown ((done ++ rest).map (emitted target)) st.lines
  | [], done, before, declared, _, hg => ⟨⟨before ++ [], declared⟩, rfl, by simpa using hg⟩
  | line :: rest, done, before, declared, h, hg => by
    obtain ⟨grown, n, hg', hl, hs⟩ : ∃ grown n, Grown before grown ∧ grown.length = before.length + n ∧
        (emitAt target before.length (before ++ line :: rest)).outcome =
          .ok ⟨grown ++ emitted target line :: rest, n⟩ := by
      cases he : emitsNothing line with
      | true =>
        have hn : updateEmission target line = pure none := updateEmission_of_emitsNothing he
        have hli : (before ++ line :: rest)[before.length]? = some line := by simp
        refine ⟨before, 0, .refl before, rfl, ?_⟩
        rw [emitAt_eq hli, hn, emitted_eq_self (congrArg Run.outcome hn)]
        rfl
      | false =>
        obtain ⟨e, rfl, hv, hc, ho⟩ := h done line rest rfl he
        rw [(e.emitted_line target).mpr hv]
        exact e.emitAt_line target hv hc (ho.grown hg) rest
    have hne : Grown ((done ++ [line]).map (emitted target)) (grown ++ [emitted target line]) := by
      rw [map_append]
      exact (hg.trans hg').append (.refl _)
    have hr : KeepsValues target ((done ++ [line]) ++ rest) := by rwa [← append_cons]
    obtain ⟨st, hrun, hst⟩ := visitLines_end (declared || n != 0) hr hne
    refine ⟨st, ?_, by rwa [← append_cons] at hst⟩
    have hp : before.length + n + 1 = (grown ++ [emitted target line]).length := by
      rw [length_append, hl]
      rfl
    rw [length_cons, visitLines]
    refine Run.bind_eq_ok.mpr ⟨_, hs, ?_⟩
    dsimp only
    rwa [append_cons grown, hp]

/-- **When values are kept.** -/
theorem values_kept_iff (target : Target) :
    (∀ e : OldEmission, (emitted target e.line = e.newLine ↔ e.isVerbatim = true) ∧
      ((∀ v ∈ e.values, v.isPlain = true) → e.isVerbatim = true)) ∧
    ∀ lines, KeepsValues target lines →
      ∃ st, (updateEmissions target lines).outcome = .ok st ∧ Grown (lines.map (emitted target)) st.lines := by
  refine ⟨fun e => ⟨e.emitted_line target, e.isVerbatim_of_isPlain⟩, fun lines h => ?_⟩
  exact @KeepsValues.visitLines_end target lines [] [] false h .nil

theorem isPath_self : isPath "self" := by decide

def nameAndString : OldEmission where
  indent := "        "
  path := "self"
  signal := "sent"
  values := [.name "x" (by decide), .string '"' "a b" (by decide) (by decide)]
  blank := all_eq_true.mp (by decide)
  dotted := isPath_self
  named := by decide
  filled := cons_ne_nil _ _

theorem values_kept_iff_nameAndString :
    emitted .new nameAndString.line = "        self.sent.emit(x, \"a b\")\n" ∧
      ∃ st, (updateEmissions .new ["class A:\n", "    def f(self):\n", nameAndString.line]).outcome = .ok st ∧
        Grown ["class A:\n", "    def f(self):\n", nameAndString.newLine] st.lines := by
  have hplain : ∀ v ∈ nameAndString.values, v.isPlain = true :=
    List.forall_mem_cons.mpr ⟨by decide, List.forall_mem_singleton.mpr (by decide)⟩
  have hkept := (values_kept_iff .new).1 nameAndString
  have hnew := hkept.1.mpr (hkept.2 hplain)
  have hkeeps : KeepsValues .new ["class A:\n", "    def f(self):\n", nameAndString.line] := by
    intro front line back hsplit hemits
    rcases front with _ | ⟨a, _ | ⟨b, _ | ⟨c, front⟩⟩⟩
    · obtain ⟨rfl, -⟩ := List.cons.inj hsplit
      exact absurd hemits (by decide)
    · obtain ⟨rfl, -⟩ := List.cons.inj (List.cons.inj hsplit).2
      exact absurd hemits (by decide)
    · obtain ⟨rfl, hrest⟩ := List.cons.inj hsplit
      obtain ⟨rfl, hlast⟩ := List.cons.inj hrest
      obtain ⟨rfl, -⟩ := List.cons.inj hlast
      refine ⟨nameAndString, rfl, hkept.2 hplain, by decide, [], _, [_], rfl, by decide, ?_⟩
      exact List.forall_mem_singleton.mpr fun _ _ => ⟨"    ", by decide⟩
    · exact absurd (congrArg List.length hsplit) (by simp)
  obtain ⟨st, hrun, hgrown⟩ := (values_kept_iff .new).2 _ hkeeps
  refine ⟨hnew, st, hrun, ?_⟩
  rw [← hnew]
  exact hgrown

theorem isName_letter : isName "n" := by decide

def commaString : OldEmission where
  indent := "        "
  path := "self"
  signal := "n"
  values := [.string '"' "a,b" (by decide) (by decide)]
  blank := all_eq_true.mp (by decide)
  dotted := isPath_self
  named := isName_letter
  filled := cons_ne_nil _ _

/-- **A comma in a string is taken for one between values.** -/
theorem comma_in_string_respaced :
    commaString.newLine = "        self.n.emit(\"a,b\")\n" ∧
      (updateEmissions .new ["class A:\n", "    def f(self):\n", commaString.line]).outcome =
        .ok ⟨["class A:\n", "    n = pyqtSignal()\n", "\n", "    def f(self):\n", "        self.n.emit(\"a, b\")\n"],
          true⟩ := by
  decide

end QtMigration
