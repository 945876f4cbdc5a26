import QtMigration.Proofs.Text.Search

/-!
# Proofs/Text/Split — the pieces of a text, and occurrences that cross a border

The pieces of a split, with the separator between them, are the text (`flatten_splitGo`), and none of them
contains the separator (`splitOn_lacks`).
-/

namespace QtMigration

open List

variable {c : Char} {needle rest sep : Text}

/-! ## Occurrences at a border -/

section Border

variable {α : Type} {piece a b : List α}

theorem infix_append_cases (h : piece <:+: a ++ b) : piece <:+: a ∨ piece <:+: b ∨
      ∃ l r, piece = l ++ r ∧ l ≠ [] ∧ r ≠ [] ∧ l <:+ a ∧ r <+: b := by
  obtain ⟨front, rest, h⟩ := h
  rw [append_assoc] at h
  rcases append_eq_append_iff.mp h with ⟨u, rfl, hu⟩ | ⟨u, rfl, rfl⟩
  · rcases append_eq_append_iff.mp hu with ⟨v, rfl, -⟩ | ⟨v, rfl, rfl⟩
    · exact .inl ⟨front, v, by simp⟩
    · rcases eq_nil_or_concat u with rfl | ⟨u', x, rfl⟩
      · exact .inr (.inl ⟨[], rest, by simp⟩)
      · cases v with
        | nil => exact .inl ⟨front, [], by simp⟩
        | cons y v =>
          exact .inr (.inr ⟨_, y :: v, rfl, by simp, by simp, ⟨front, rfl⟩, ⟨rest, by simp⟩⟩)
  · exact .inr (.inl ⟨u, rest, by simp⟩)

theorem infix_or_infix_of_head {x : α} (hx : x ∉ piece.drop 1) (h : piece <:+: a ++ x :: b) :
    piece <:+: a ∨ piece <:+: x :: b := by
  rcases infix_append_cases h with h | h | ⟨l, r, rfl, hl, hr, -, hp⟩
  · exact .inl h
  · exact .inr h
  · obtain ⟨y, l, rfl⟩ := exists_cons_of_ne_nil hl
    obtain ⟨z, r, rfl⟩ := exists_cons_of_ne_nil hr
    obtain ⟨rfl, -⟩ := cons_prefix_cons.mp hp
    exact absurd (by simp) hx

theorem prefix_of_prefix_append {x : α} (hx : x ∉ piece.drop 1) (ha : a ≠ [])
    (h : piece <+: a ++ x :: b) : piece <+: a := by
  rcases prefix_or_prefix_of_prefix h (prefix_append a _) with hin | ⟨v, rfl⟩
  · exact hin
  · obtain ⟨y, a, rfl⟩ := exists_cons_of_ne_nil ha
    cases v with
    | nil => simp
    | cons z v =>
      obtain ⟨rfl, -⟩ := cons_prefix_cons.mp ((prefix_append_right_inj _).mp h)
      exact absurd (by simp) hx

end Border

namespace Text

/-! ## Taking a text apart -/

theorem flatten_splitGo (hs : sep ≠ []) : ∀ (n : Nat) (s : Text),
    (splitGo sep n s).1 ++ ((splitGo sep n s).2.map (sep ++ ·)).flatten = s.drop n
  | n, [] => by cases n <;> simp [splitGo]
  | n + 1, c :: cs => by rw [splitGo, flatten_splitGo hs n cs, drop_succ_cons]
  | 0, c :: cs => by
    rw [splitGo]
    split
    next hp =>
      obtain ⟨rest, hr⟩ := isPrefixOf_iff_prefix.mp hp
      have hl : 0 < sep.length := length_pos_iff.mpr hs
      have hcs : cs.drop (sep.length - 1) = rest := by
        have hd : (c :: cs).drop sep.length = rest := by rw [← hr, drop_left]
        rwa [show sep.length = sep.length - 1 + 1 by omega, drop_succ_cons] at hd
      have ih := flatten_splitGo hs (sep.length - 1) cs
      rw [hcs] at ih
      simp only [nil_append, map_cons, flatten_cons, append_assoc, ih, hr, drop_zero]
    next => simpa using flatten_splitGo hs 0 cs

theorem flatten_splitOn {s sep front : Text} {tails : List Text} (hs : sep ≠ [])
    (h : s.splitOn sep = front :: tails) : front ++ (tails.map (sep ++ ·)).flatten = s := by
  rw [splitOn, cons.injEq] at h
  obtain ⟨rfl, rfl⟩ := h
  simpa using flatten_splitGo hs 0 s

theorem splitGo_lacks {sep : Text} (hs : sep ≠ []) : ∀ (n : Nat) (s : Text),
    ∀ piece ∈ (splitGo sep n s).1 :: (splitGo sep n s).2, ¬ sep <:+: piece
  | n, [] => by cases n <;> simpa [splitGo] using hs
  | n + 1, c :: cs => by rw [splitGo]; exact splitGo_lacks hs n cs
  | 0, c :: cs => by
    rw [splitGo]
    split
    next =>
      have ih := splitGo_lacks hs (sep.length - 1) cs
      exact forall_mem_cons.mpr ⟨by simpa using hs, ih⟩
    next hp =>
      obtain ⟨hf, hr⟩ := forall_mem_cons.mp (splitGo_lacks hs 0 cs)
      refine forall_mem_cons.mpr ⟨fun hi => ?_, hr⟩
      rcases infix_cons_iff.mp hi with hpre | hi
      · -- the piece is a beginning of the text, so the separator would begin the text
        have hle : c :: (splitGo sep 0 cs).1 <+: c :: cs :=
          cons_prefix_cons.mpr ⟨rfl, ⟨_, by simpa using flatten_splitGo hs 0 cs⟩⟩
        exact hp ( isPrefixOf_iff_prefix.mpr (hpre.trans hle))
      · exact hf hi

theorem splitOn_lacks {s sep piece : Text} (hs : sep ≠ []) (h : piece ∈ s.splitOn sep) : ¬ sep <:+: piece :=
  splitGo_lacks hs 0 s piece h

theorem exists_splitOn_of_infix {s : Text} (hsep : sep ≠ []) (h : sep <:+: s) :
    ∃ piece next rest, s.splitOn sep = piece :: next :: rest := by
  cases hr : (splitGo sep 0 s).2 with
  | nil =>
    have hs : s.splitOn sep = [(splitGo sep 0 s).1] := by rw [splitOn, hr]
    have hw : (splitGo sep 0 s).1 = s := by simpa using flatten_splitOn hsep hs
    exact absurd (hw ▸ h) (splitOn_lacks hsep (hs ▸ mem_cons_self))
  | cons next rest => exact ⟨_, next, rest, by rw [splitOn, hr]⟩

/-! ## Putting a text together -/

theorem splitGo_pass : ∀ (passed : Text), (∀ k < passed.length, ¬ sep <+: (passed ++ rest).drop k) →
      splitGo sep 0 (passed ++ rest) = (passed ++ (splitGo sep 0 rest).1, (splitGo sep 0 rest).2)
  | [], _ => rfl
  | c :: passed, h => by
    have hp : ¬ sep.isPrefixOf (c :: (passed ++ rest)) := fun hp =>
      h 0 (by simp) ( isPrefixOf_iff_prefix.mp hp)
    have ih := splitGo_pass passed fun k hk => h (k + 1) (by simpa using hk)
    rw [cons_append, splitGo, if_neg hp, ih]
    rfl

theorem splitGo_sep (hs : sep ≠ []) (rest : Text) :
    splitGo sep 0 (sep ++ rest) = ([], (splitGo sep 0 rest).1 :: (splitGo sep 0 rest).2) :=
  splitGo_append hs rest [] (by simp)

theorem replaceAll_pass {old : Text} (new : Text) : ∀ (passed : Text),
    (∀ k < passed.length, ¬ old <+: (passed ++ rest).drop k) →
      replaceAll (passed ++ rest) old new = passed ++ replaceAll rest old new
  | [], _ => rfl
  | c :: passed, h => by
    have hp : ¬ old.isPrefixOf (c :: (passed ++ rest)) := fun hp =>
      h 0 (by simp) ( isPrefixOf_iff_prefix.mp hp)
    have ih := replaceAll_pass new passed fun k hk => h (k + 1) (by simpa using hk)
    rw [cons_append, replaceAll, replaceGo, if_neg hp]
    exact congrArg (c :: ·) ih

theorem splitOn_eq_pair {before stem behind : Text} {c : Char} (hc : c ∉ stem)
    (hb : before.has (stem ++ [c]) = false) (hbe : behind.has (stem ++ [c]) = false) :
    (before ++ ((stem ++ [c]) ++ behind)).splitOn (stem ++ [c]) = [before, behind] := by
  rw [splitOn, splitGo_append (by simp) behind before fun k hk => not_prefix_drop_of_not_has hc hb hk,
    splitGo_of_not_has hbe]

theorem has_append_cons {a b : Text} (hc : c ∉ needle) :
    (a ++ c :: b).has needle = (a.has needle || b.has needle) := by
  refine Bool.eq_iff_iff.mpr ?_
  rw [Bool.or_eq_true, has_iff_infix, has_iff_infix, has_iff_infix]
  constructor
  · intro h
    refine (infix_or_infix_of_head (fun hm => hc (mem_of_mem_drop hm)) h).imp_right fun h => ?_
    rcases infix_cons_iff.mp h with hp | h
    · cases needle with
      | nil => exact nil_infix
      | cons d needle =>
        obtain ⟨rfl, -⟩ := cons_prefix_cons.mp hp
        exact absurd mem_cons_self hc
    · exact h
  · rintro (⟨s, t, rfl⟩ | ⟨s, t, rfl⟩)
    · exact ⟨s, t ++ c :: b, by simp⟩
    · exact ⟨a ++ c :: s, t, by simp⟩

theorem has_concat_eq_false {a b stem : Text} (ha : c ∉ a) (hb : c ∉ b)
    (h : a.endsWith stem = false) : (a ++ c :: b).has (stem ++ [c]) = false := by
  have hs : ∀ u, u ++ stem ≠ a := fun u hu => by
    rw [← hu, endsWith, isSuffixOf_iff_suffix.mpr (suffix_append u stem)] at h
    cases h
  refine has_eq_false_iff.mpr ?_
  rintro ⟨u, v, huv⟩
  have huv : (u ++ stem) ++ c :: v = a ++ c :: b := by simpa using huv
  rcases append_eq_append_iff.mp huv with ⟨w, rfl, hw⟩ | ⟨w, hw, hv⟩
  · cases w with
    | nil => exact hs u (append_nil _).symm
    | cons d w =>
      obtain ⟨rfl, -⟩ := cons.inj hw
      exact ha (by simp)
  · cases w with
    | nil => exact hs u (hw.trans (append_nil a))
    | cons d w =>
      obtain ⟨rfl, rfl⟩ := cons.inj hv
      exact hb (by simp)

/-! ## A separator of one character -/

theorem splitOn_cons (c d : Char) (s : Text) :
    splitOn (d :: s) [c] = if d = c then [] :: splitOn s [c] else (splitOn s [c]).modifyHead (d :: ·) := by
  rw [splitOn, splitGo]
  by_cases h : d = c
  · rw [if_pos (by simp [h, List.isPrefixOf]), if_pos h]
    rfl
  · rw [if_neg (by simpa [List.isPrefixOf] using Ne.symm h), if_neg h]
    rfl

theorem splitOn_append_cons (c : Char) (t : Text) : ∀ s : Text,
    splitOn (s ++ c :: t) [c] = splitOn s [c] ++ splitOn t [c]
  | [] => by
    rw [nil_append, splitOn_cons, if_pos rfl]
    rfl
  | d :: s => by
    rw [cons_append, splitOn_cons, splitOn_cons, splitOn_append_cons c t s]
    split
    · rfl
    · obtain ⟨first, rest, hs⟩ : ∃ first rest, splitOn s [c] = first :: rest := ⟨_, _, rfl⟩
      rw [hs]
      rfl

theorem length_splitOn (c : Char) : ∀ s : Text, (splitOn s [c]).length = s.count c + 1
  | [] => rfl
  | d :: s => by
    rw [splitOn_cons, count_cons]
    by_cases h : d = c
    · rw [if_pos h, if_pos (by simpa using h), length_cons, length_splitOn c s]
    · rw [if_neg h, if_neg (by simpa using h), length_modifyHead, length_splitOn c s, Nat.add_zero]

/-! ## Lists of names -/

theorem commaList_cons_cons (n m : Text) (names : List Text) :
    commaList (n :: m :: names) = n ++ ',' :: ' ' :: commaList (m :: names) := by
  rw [commaList, join, append_assoc]
  rfl

theorem forall_mem_commaList {P : Char → Prop} (hc : P ',') (hb : P ' ') : ∀ {names : List Text},
    (∀ n ∈ names, ∀ c ∈ n, P c) → ∀ c ∈ commaList names, P c
  | [], _ => by simp [commaList, join]
  | [n], h => h n mem_cons_self
  | n :: m :: names, h => by
    obtain ⟨hn, hna⟩ := forall_mem_cons.mp h
    rw [commaList_cons_cons]
    refine forall_mem_append.mpr ⟨hn, forall_mem_cons.mpr ⟨hc, forall_mem_cons.mpr ⟨hb, ?_⟩⟩⟩
    exact forall_mem_commaList hc hb hna

theorem has_commaList (hne : needle ≠ []) (hc : ',' ∉ needle) (hb : needle.head? ≠ some ' ') :
    ∀ names : List Text, (commaList names).has needle = names.any (·.has needle)
  | [] => by
    rw [commaList, join, has, any_nil]
    exact isEmpty_eq_false_iff.mpr hne
  | [n] => by simp [commaList, join]
  | n :: m :: names => by
    have hsk : Text.has (' ' :: commaList (m :: names)) needle = (commaList (m :: names)).has needle := by
      have hs : needle.isPrefixOf (' ' :: commaList (m :: names)) = false := by
        cases needle with
        | nil => exact absurd rfl hne
        | cons c cs => simp [List.isPrefixOf, show c ≠ ' ' by simpa using hb]
      rw [has, hs, Bool.false_or]
    rw [commaList_cons_cons, has_append_cons hc, hsk, has_commaList hne hc hb (m :: names)]
    rfl

end Text

end QtMigration
