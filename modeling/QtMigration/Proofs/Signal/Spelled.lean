import QtMigration.Proofs.Failure
import QtMigration.Proofs.Text.Split
import QtMigration.Proofs.Text.Words
import QtMigration.Signal.Signature

/-!
# Proofs/Signal/Spelled — arguments and signatures are read back as they were written

**Arguments that are written with a comma and a blank between them are read back** (`splitArguments_commaList`).
-/

namespace QtMigration

open List Text

variable {c : Char} {keyword s t : Text}

/-! ## The last closing parenthesis -/

theorem Text.beforeLast?_append (h : c ∉ t) : (s ++ c :: t).beforeLast? c = some s := by
  have hdr : (s ++ c :: t).reverse.dropWhile (· != c) = c :: s.reverse := by
    rw [reverse_append, reverse_cons, append_assoc, dropWhile_append_of_pos]
    · simp
    · intro d hd
      rw [bne_iff_ne]
      rintro rfl
      exact h (mem_reverse.mp hd)
  rw [beforeLast?, hdr]
  exact congrArg some (reverse_reverse s)

theorem Text.cut?_append {c : Char} : ∀ {s : Text}, c ∉ s → ∀ t, (s ++ c :: t).cut? [c] = some (s, t)
  | [], _, t => by simp [cut?, List.isPrefixOf]
  | d :: s, h, t => by
    obtain ⟨hd, hs⟩ := ne_and_not_mem_of_not_mem_cons h
    rw [cons_append, cut?, if_neg (by simpa [List.isPrefixOf] using hd), cut?_append hs t]
    rfl

theorem Text.notMem_replaceGo {c : Char} {old new : Text} (hn : c ∉ new) : ∀ (n : Nat) {s : Text}, c ∉ s →
    c ∉ replaceGo old new n s
  | n, [], _ => by
    rw [replaceGo]
    exact not_mem_nil
  | n + 1, d :: s, h => by
    rw [replaceGo]
    exact notMem_replaceGo hn n (not_mem_of_not_mem_cons h)
  | 0, d :: s, h => by
    obtain ⟨hd, hs⟩ := ne_and_not_mem_of_not_mem_cons h
    rw [replaceGo]
    split
    · rw [mem_append, not_or]
      exact ⟨hn, notMem_replaceGo hn _ hs⟩
    · rw [mem_cons, not_or]
      exact ⟨hd, notMem_replaceGo hn 0 hs⟩

theorem Text.notMem_replaceEach {c : Char} : ∀ {rules : List (Text × Text)} {s : Text},
    (∀ rule ∈ rules, c ∉ rule.2) → c ∉ s → c ∉ s.replaceEach rules
  | [], _, _, h => h
  | rule :: rules, s, hr, h => by
    obtain ⟨hru, hr⟩ := forall_mem_cons.mp hr
    have hf : c ∉ s.replaceAll rule.1 rule.2 := notMem_replaceGo hru 0 h
    have hre := notMem_replaceEach hr hf
    exact hre

/-! ## Pieces -/

/-- The parentheses are nested, with `d` of them open at the beginning and none at the end, and no comma
stands outside them. -/
def isNested : Nat → Text → Bool
  | d, [] => d == 0
  | d, c :: cs =>
    if c == '(' then isNested (d + 1) cs
    else if c == ')' then d != 0 && isNested (d - 1) cs
    else !(d == 0 && c == ',') && isNested d cs

theorem isNested_of_notMem : ∀ {s : Text}, '(' ∉ s → ')' ∉ s → ',' ∉ s → isNested 0 s
  | [], _, _, _ => rfl
  | c :: s, ho, hc, hco => by
    obtain ⟨ho, hop⟩ := ne_and_not_mem_of_not_mem_cons ho
    obtain ⟨hc, hcl⟩ := ne_and_not_mem_of_not_mem_cons hc
    obtain ⟨hco, hcommas⟩ := ne_and_not_mem_of_not_mem_cons hco
    rw [isNested, if_neg (by simpa using Ne.symm ho), if_neg (by simpa using Ne.symm hc),
      beq_eq_false_iff_ne.mpr (Ne.symm hco), isNested_of_notMem hop hcl hcommas]
    rfl

/-- **The text is passed over as a part of one piece**, whatever comes behind it. -/
def OnePiece (s : Text) : Prop :=
  ∀ rest, outerPieces 0 none (s ++ rest) = (outerPieces 0 none rest).map fun r => (s ++ r.1, r.2)

theorem consPiece_map (c : Char) (s : Text) (r : Option (Text × List Text)) :
    consPiece c (r.map fun r => (s ++ r.1, r.2)) = r.map fun r => (c :: s ++ r.1, r.2) := by
  cases r <;> rfl

theorem outerPieces_nested : ∀ {s : Text} {d : Nat}, isNested d s → '"' ∉ s → '\'' ∉ s → ∀ rest,
    outerPieces d none (s ++ rest) = (outerPieces 0 none rest).map fun r => (s ++ r.1, r.2)
  | [], d, h, _, _, rest => by
    rw [isNested, beq_iff_eq] at h
    subst h
    simp
  | c :: s, d, h, hdo', hs', rest => by
    obtain ⟨hcd, hdo⟩ := ne_and_not_mem_of_not_mem_cons hdo'
    obtain ⟨hcs, hs⟩ := ne_and_not_mem_of_not_mem_cons hs'
    have hq : (c == '"' || c == '\'') = false := by simp [Ne.symm hcd, Ne.symm hcs]
    rw [isNested] at h
    rw [cons_append, ← consPiece_map]
    split at h
    next ho =>
      have ih := outerPieces_nested h hdo hs rest
      rw [← ih]
      obtain rfl := eq_of_beq ho
      cases d <;> rfl
    next ho =>
    split at h
    next hc =>
      obtain rfl := eq_of_beq hc
      rw [Bool.and_eq_true, bne_iff_ne] at h
      obtain ⟨hd, h⟩ := h
      obtain ⟨d, rfl⟩ := Nat.exists_eq_succ_of_ne_zero hd
      rw [← outerPieces_nested h hdo hs rest]
      rfl
    next hc =>
      rw [Bool.and_eq_true, Bool.not_eq_true'] at h
      obtain ⟨hco, h⟩ := h
      rw [← outerPieces_nested h hdo hs rest]
      cases d with
      | zero =>
        have hco : ¬ (c == ',') := by simpa using hco
        rw [outerPieces, if_neg hco, if_neg ho]
      | succ d => rw [outerPieces, hq, if_neg (by decide), if_neg ho, if_neg hc]

theorem OnePiece.of_isNested (h : isNested 0 s) (hd : '"' ∉ s) (hs : '\'' ∉ s) :
    OnePiece s := outerPieces_nested h hd hs

theorem OnePiece.append (hs : OnePiece s) (ht : OnePiece t) : OnePiece (s ++ t) := fun rest => by
  rw [append_assoc, hs, ht]
  cases outerPieces 0 none rest <;> simp

theorem outerPieces_string (d : Nat) {q : Char} : ∀ {s : Text}, q ∉ s → ∀ rest,
    outerPieces (d + 1) (some q) (s ++ q :: rest) = (outerPieces (d + 1) none rest).map fun r => (s ++ q :: r.1, r.2)
  | [], _, rest => by
    rw [nil_append, outerPieces, if_pos (beq_self_eq_true q)]
    cases outerPieces (d + 1) none rest <;> rfl
  | c :: s, h, rest => by
    obtain ⟨hc, hs⟩ := ne_and_not_mem_of_not_mem_cons h
    rw [cons_append, outerPieces, if_neg (by simpa using Ne.symm hc), outerPieces_string d hs rest]
    cases outerPieces (d + 1) none rest <;> rfl

theorem OnePiece.quoted (h : '"' ∉ s) : OnePiece ('(' :: '"' :: (s ++ ['"', ')'])) := fun rest => by
  have hs := outerPieces_string 0 h (')' :: rest)
  have hc : outerPieces 1 none (')' :: rest) = consPiece ')' (outerPieces 0 none rest) := rfl
  have ho : ∀ t, outerPieces 0 none ('(' :: '"' :: t) =
      consPiece '(' (consPiece '"' (outerPieces 1 (some '"') t)) := fun _ => rfl
  rw [cons_append, cons_append, append_assoc, ho, cons_append, cons_append, nil_append, hs, hc]
  cases outerPieces 0 none rest <;> simp [consPiece]

/-! ## Arguments -/

/-- **A text that is read back as an argument.** -/
structure IsArgument (s : Text) : Prop where
  onePiece : OnePiece s
  trimmed : s.trim = s
  filled : s ≠ []
  noLambda : s.has "lambda " = false

theorem outerPieces_commaList : ∀ (args : List Text) {arg : Text}, (∀ a ∈ arg :: args, OnePiece a) →
    outerPieces 0 none (Text.commaList (arg :: args)) = some (arg, args.map (' ' :: ·))
  | [], arg, h => by
    have ho := h arg mem_cons_self []
    rw [append_nil] at ho
    rw [Text.commaList, Text.join, ho]
    simp [outerPieces]
  | next :: args, arg, h => by
    obtain ⟨harg, ha⟩ := forall_mem_cons.mp h
    have hc : ∀ t, outerPieces 0 none (',' :: ' ' :: t) =
        (consPiece ' ' (outerPieces 0 none t)).map fun r => ([], r.1 :: r.2) := fun _ => rfl
    rw [commaList_cons_cons, harg, hc, outerPieces_commaList args ha]
    simp [consPiece]

theorem joinLambdas_eq_self : ∀ {ps : List Text}, (∀ p ∈ ps, p.has "lambda " = false) → joinLambdas none ps = ps
  | [], _ => rfl
  | p :: ps, h => by
    obtain ⟨hp, hps⟩ := forall_mem_cons.mp h
    rw [joinLambdas, hp, Bool.false_and, if_neg (by decide), joinLambdas_eq_self hps]

theorem splitArguments_commaList {args : List Text} (h : ∀ arg ∈ args, IsArgument arg) :
    splitArguments (Text.commaList args) = .ok args := by
  cases args with
  | nil => rfl
  | cons arg args =>
    obtain ⟨harg, har⟩ := forall_mem_cons.mp h
    have hl : ∀ p ∈ arg :: args.map (' ' :: ·), Text.has p "lambda " = false := by
      refine forall_mem_cons.mpr ⟨harg.noLambda, ?_⟩
      rintro p hp
      obtain ⟨a, ha, rfl⟩ := mem_map.mp hp
      rw [Text.has, (har a ha).noLambda]
      rfl
    have ht : (args.map (' ' :: ·)).map Text.trim = args := by
      rw [map_map]
      refine (map_congr_left fun a ha => ?_).trans (map_id args)
      exact (trim_cons_blank (by decide) a).trans (har a ha).trimmed
    rw [splitArguments, outerPieces_commaList args fun a ha => (h a ha).onePiece]
    dsimp only
    rw [joinLambdas_eq_self hl]
    cases args with
    | nil =>
      rw [map_nil, trimArguments, harg.trimmed, if_neg (by simpa using harg.filled)]
    | cons next args =>
      rw [trimArguments]
      · rw [map_cons, harg.trimmed, ht]
      · rintro p hp
        cases hp

theorem exists_splitArguments (h : '(' ∉ s) : ∃ args, splitArguments s = .ok args := by
  have hp : ∃ r, outerPieces 0 none s = some r := by
    induction s with
    | nil => exact ⟨_, rfl⟩
    | cons c s ih =>
      obtain ⟨hc, hs⟩ := ne_and_not_mem_of_not_mem_cons h
      obtain ⟨r, hr⟩ := ih hs
      rw [outerPieces, hr]
      split
      · exact ⟨_, rfl⟩
      · rw [if_neg (by simpa using Ne.symm hc)]
        exact ⟨_, rfl⟩
  obtain ⟨r, hr⟩ := hp
  exact ⟨_, by rw [splitArguments, hr]⟩

/-! ## Names -/

/-- A character of a name: a letter, a digit or an underscore, and beyond ASCII whatever is not white space. -/
def isNameChar (c : Char) : Bool := Text.isWord c || (0x80 ≤ c.toNat && !Text.isBlank c)

theorem isBlank_of_isNameChar (h : isNameChar c) : Text.isBlank c = false := by
  rw [isNameChar, Bool.or_eq_true, Bool.and_eq_true, Bool.not_eq_true'] at h
  exact h.elim isBlank_of_isWord And.right

def isName (s : Text) : Bool := !s.isEmpty && s.all isNameChar

section Names

variable {name : Text} (h : isName name = true)

include h

theorem ne_nil_of_isName : name ≠ [] := by
  rw [isName, Bool.and_eq_true, Bool.not_eq_true', isEmpty_eq_false_iff] at h
  exact h.1

theorem isNameChar_of_mem (hc : c ∈ name) : isNameChar c :=
  all_eq_true.mp (Bool.and_eq_true_iff.mp h).2 c hc

theorem notMem_of_isName (hc : isNameChar c = false) : c ∉ name := fun hm => by
  rw [isNameChar_of_mem h hm] at hc
  cases hc

theorem isBlank_of_mem_name (hc : c ∈ name) : Text.isBlank c = false :=
  isBlank_of_isNameChar (isNameChar_of_mem h hc)

theorem trim_name : name.trim = name := by
  have ht := trim_append (ne_nil_of_isName h) (fun c hc => isBlank_of_mem_name h hc) []
  rwa [append_nil, show Text.trimRight [] = [] from rfl, append_nil] at ht

theorem has_name {needle : Text} (hc : isNameChar c = false) (hn : c ∈ needle) :
    name.has needle = false := has_eq_false_of_notMem hn (notMem_of_isName h hc)

theorem isNested_name : isNested 0 name :=
  isNested_of_notMem (notMem_of_isName h (by decide)) (notMem_of_isName h (by decide))
    (notMem_of_isName h (by decide))

theorem isArgument_of_isName : IsArgument name where
  onePiece := .of_isNested (isNested_name h) (notMem_of_isName h (by decide)) (notMem_of_isName h (by decide))
  trimmed := trim_name h
  filled := ne_nil_of_isName h
  noLambda := has_name h (c := ' ') (by decide) (by decide)

end Names

/-! ## Types -/

def asideNames : List Text := ["const_char_star_arg", "const_char_space_star_arg"]

def typePieces : Target → List Text
  | .new => ["QString", "PyQt_PyObject"]
  | .old => "PyQt_PyObject" :: asideNames

section Types

variable {target : Target} {types : List Text} (hnames : ∀ t ∈ types, isName t = true)

include hnames

theorem notMem_commaList (hc : isNameChar c = false) (hco : c ≠ ',') (hb : c ≠ ' ') :
    c ∉ Text.commaList types := by
  refine fun hm => forall_mem_commaList (P := (· ≠ c)) (Ne.symm hco) (Ne.symm hb) ?_ c hm rfl
  rintro t ht d hd rfl
  exact notMem_of_isName (hnames t ht) hc hd

theorem cleanTypes_commaList (hc : ∀ t ∈ types, Text.hasAny t (typePieces target) = false) :
    cleanTypes target (Text.commaList types) = Text.commaList types := by
  have hconst : (Text.commaList types).has "const " = false := by
    refine (has_commaList (by decide) (by decide) (by decide) types).trans (any_eq_false.mpr fun t ht => ?_)
    rw [has_name (hnames t ht) (c := ' ') (by decide) (by decide)]
    decide
  have hpi : ∀ piece ∈ typePieces target, (Text.commaList types).has piece = false := by
    intro piece hp
    have hfo : ∀ piece ∈ typePieces target, piece ≠ [] ∧ ',' ∉ piece ∧ piece.head? ≠ some ' ' := by
      cases target <;> decide
    obtain ⟨hf, hco, hb⟩ := hfo piece hp
    rw [has_commaList hf hco hb, any_eq_false]
    intro t ht
    rw [hasAny_eq_false_iff.mp (hc t ht) _ hp]
    decide
  -- every rule looks for a pointer, a reference, a qualifier or one of the pieces
  have hr : ∀ rule ∈ typeRules target, '*' ∈ rule.1 ∨ '&' ∈ rule.1 ∨ rule.1.has "const " ∨
      rule.1.hasAny (typePieces target) := by
    cases target <;> decide
  refine replaceEach_of_not_has fun rule hru => ?_
  rcases hr rule hru with hs | ha | hq | hp
  · exact has_eq_false_of_notMem hs (notMem_commaList hnames (by decide) (by decide) (by decide))
  · exact has_eq_false_of_notMem ha (notMem_commaList hnames (by decide) (by decide) (by decide))
  · exact has_eq_false_of_subneedle hconst ( has_iff_infix.mp hq)
  · obtain ⟨piece, hm, hsub⟩ := any_eq_true.mp hp
    exact has_eq_false_of_subneedle (hpi piece hm) ( has_iff_infix.mp hsub)

end Types

/-! ## Declarations -/

/-- The spelling of a signal or a slot: its name and the types of its arguments. -/
def spelling (name : Text) (types : List Text) : Text := name ++ '(' :: (Text.commaList types ++ [')'])

def declaration (keyword name : Text) (types : List Text) : Text :=
  keyword ++ '(' :: '"' :: (spelling name types ++ ['"', ')'])

def declarationKeywords : List Text := ["SIGNAL", "SLOT"]

theorem isDeclared_declaration (hk : keyword ∈ declarationKeywords) (name : Text)
    (types : List Text) : isDeclared (declaration keyword name types) := by
  have hf : (declaration keyword name types).has (keyword ++ ['(']) :=
    has_iff_infix.mpr ⟨[], '"' :: (spelling name types ++ ['"', ')']), by simp [declaration]⟩
  have hs : ("SIGNAL(" : Text) = ("SIGNAL" : Text) ++ ['('] := by decide
  have hsl : ("SLOT(" : Text) = ("SLOT" : Text) ++ ['('] := by decide
  simp only [declarationKeywords, mem_cons, not_mem_nil, or_false] at hk
  rw [isDeclared, Bool.or_eq_true, hs, hsl]
  rcases hk with rfl | rfl
  · exact .inl hf
  · exact .inr hf

theorem parenContent?_declaration (hk : '(' ∉ keyword) (name : Text) (types : List Text) :
    parenContent? (declaration keyword name types) = some ('"' :: (spelling name types ++ ['"'])) := by
  have hr : '"' :: (spelling name types ++ ['"', ')']) = ('"' :: (spelling name types ++ ['"'])) ++ [')'] := by
    simp
  rw [parenContent?, declaration, show (("(" : String).toList : Text) = ['('] by decide, cut?_append hk]
  dsimp only
  rw [hr]
  exact beforeLast?_append not_mem_nil

section Signature

variable {target : Target} {name : Text} {types : List Text} (hname : isName name = true)
  (hnames : ∀ t ∈ types, isName t = true)

include hname

theorem trimOf_spelling : Text.trimOf ('"' :: (spelling name types ++ ['"'])) "'\"" = spelling name types := by
  obtain ⟨c, cs, rfl⟩ := exists_cons_of_ne_nil (ne_nil_of_isName hname)
  have hset : (("'\"" : String).toList : Text) = ['\'', '"'] := by decide
  have hc : List.contains ['\'', '"'] c = false := by
    have hd := ne_of_not_mem_cons (notMem_of_isName hname (c := '"') (by decide))
    have hs := ne_of_not_mem_cons (notMem_of_isName hname (c := '\'') (by decide))
    simp [Ne.symm hd, Ne.symm hs]
  have hl : Text.trimLeftOf ('"' :: (spelling (c :: cs) types ++ ['"'])) ['\'', '"'] =
      spelling (c :: cs) types ++ ['"'] := by
    rw [Text.trimLeftOf, Text.trimLeftWhile, dropWhile_cons_of_pos (by decide), spelling, cons_append,
      cons_append, dropWhile_cons_of_neg (by rw [hc]; decide)]
  have hri : Text.trimRightOf (spelling (c :: cs) types ++ ['"']) ['\'', '"'] = spelling (c :: cs) types := by
    have hr : (spelling (c :: cs) types).reverse =
        ')' :: ((c :: cs) ++ '(' :: Text.commaList types).reverse := by simp [spelling]
    rw [Text.trimRightOf, Text.trimRightWhile, reverse_append, reverse_singleton, singleton_append,
      dropWhile_cons_of_pos (by decide), hr, dropWhile_cons_of_neg (by decide), ← hr,
      reverse_reverse]
  rw [Text.trimOf, hset, hl, hri]

include hnames

theorem signatureParts_spelling : signatureParts target (spelling name types) =
    (splitArguments (cleanTypes target (Text.commaList types))).map (name :: ·) := by
  have hs : (spelling name types).splitOn "(" = [name, Text.commaList types ++ [')']] := by
    have hb : name.has ([] ++ ['(']) = false := has_name hname (c := '(') (by decide) (by decide)
    have hbe : Text.has (Text.commaList types ++ [')']) ([] ++ ['(']) = false := by
      refine has_eq_false_of_notMem (c := '(') (by decide) ?_
      rw [mem_append, not_or]
      exact ⟨notMem_commaList hnames (by decide) (by decide) (by decide), by decide⟩
    exact splitOn_eq_pair not_mem_nil hb hbe
  have ht : Text.replaceAll (Text.commaList types ++ [')']) ")" "" = Text.commaList types := by
    have hc := notMem_commaList hnames (c := ')') (by decide) (by decide) (by decide)
    exact (replaceAll_append_of_notMem [')'] hc).trans (append_nil _)
  have hl : name.trimLeft = name := by
    obtain ⟨c, cs, rfl⟩ := exists_cons_of_ne_nil (ne_nil_of_isName hname)
    exact trimLeft_cons (isBlank_of_mem_name hname mem_cons_self) cs
  rw [signatureParts, hs]
  dsimp only
  rw [ht, hl]

omit hnames in
theorem signature_eq (hk : keyword ∈ declarationKeywords) :
    signature target (declaration keyword name types) = liftM (signatureParts target (spelling name types)) := by
  have hp : '(' ∉ keyword := (show ∀ k ∈ declarationKeywords, '(' ∉ k by decide) keyword hk
  have ht : Text.trim ('"' :: (spelling name types ++ ['"'])) = '"' :: (spelling name types ++ ['"']) := by
    rw [Text.trim, trimLeft_cons (by decide), ← cons_append, trimRight_concat (by decide)]
  have hq : Text.startsWithAny ('"' :: (spelling name types ++ ['"'])) ["\"", "'"] := rfl
  rw [signature, if_pos (isDeclared_declaration hk name types), parenContent?_declaration hp]
  dsimp only
  rw [ht, if_pos hq, trimOf_spelling hname]

theorem signature_declaration (hk : keyword ∈ declarationKeywords)
    (hc : ∀ t ∈ types, Text.hasAny t (typePieces target) = false) :
    signature target (declaration keyword name types) = pure (name :: types) := by
  rw [signature_eq hname hk, signatureParts_spelling hname hnames, cleanTypes_commaList hnames hc,
    splitArguments_commaList fun t ht => isArgument_of_isName (hnames t ht)]
  rfl

theorem exists_signature_declaration (hk : keyword ∈ declarationKeywords) :
    ∃ parts, signature target (declaration keyword name types) = pure (name :: parts) := by
  have hp : '(' ∉ cleanTypes target (Text.commaList types) := by
    have hr : ∀ rule ∈ typeRules target, '(' ∉ rule.2 := by cases target <;> decide
    exact notMem_replaceEach hr (notMem_commaList hnames (by decide) (by decide) (by decide))
  obtain ⟨parts, hpa⟩ := exists_splitArguments hp
  refine ⟨parts, ?_⟩
  rw [signature_eq hname hk, signatureParts_spelling hname hnames, hpa]
  rfl

end Signature

end QtMigration
