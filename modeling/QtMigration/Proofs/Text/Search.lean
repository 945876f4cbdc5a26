import QtMigration.Text.Search

/-!
# Proofs/Text/Search — a text that lacks a piece is not changed by looking for it

`has` is the infix relation of lists (`has_iff_infix`). Where the piece does not occur, splitting gives the
text back as its only piece and replacing gives it back unchanged; where it does, `firstPiece_append` says
what stands before it.
-/

namespace QtMigration

open List

variable {new old sep : Text}

variable {c : Char} {before needle rest s stem : Text}

theorem exists_append_of_getElem? {α : Type} {l : List α} {i : Nat} {a : α} (h : l[i]? = some a) :
    ∃ front back, l = front ++ a :: back ∧ front.length = i := by
  obtain ⟨hi, rfl⟩ := List.getElem?_eq_some_iff.mp h
  exact ⟨l.take i, l.drop (i + 1), by rw [getElem_cons_drop, take_append_drop], length_take_of_le (by omega)⟩

namespace Text

/-! ## Occurrence -/

theorem has_iff_infix {needle : Text} : ∀ {s : Text}, s.has needle ↔ needle <:+: s
  | [] => by rw [has, List.isEmpty_iff, infix_nil]
  | c :: cs => by
    rw [has, Bool.or_eq_true, isPrefixOf_iff_prefix, has_iff_infix, infix_cons_iff]

theorem has_eq_false_iff : s.has needle = false ↔ ¬ needle <:+: s := by
  rw [← has_iff_infix, Bool.not_eq_true]

theorem has_eq_false_of_notMem (hc : c ∈ needle) (hs : c ∉ s) : s.has needle = false :=
  has_eq_false_iff.mpr fun h => hs (h.subset hc)

theorem has_eq_false_of_subneedle {small large : Text} (h : s.has small = false)
    (hs : small <:+: large) : s.has large = false :=
  has_eq_false_iff.mpr fun hl => has_eq_false_iff.mp h (hs.trans hl)

theorem has_append_eq_false {s t stem : Text} {c : Char} (hs : s.has (stem ++ [c]) = false)
    (ht : c ∉ t) : (s ++ t).has (stem ++ [c]) = false := by
  refine has_eq_false_iff.mpr fun ⟨front, rest, h⟩ => ?_
  rcases append_eq_append_iff.mp h with ⟨u, rfl, -⟩ | ⟨u, hu, rfl⟩
  · exact has_eq_false_iff.mp hs ⟨front, u, rfl⟩
  · -- the last character of the piece lies in `t`, unless nothing of the piece does
    rcases eq_nil_or_concat u with rfl | ⟨v, d, rfl⟩
    · exact has_eq_false_iff.mp hs ⟨front, [], by simpa using hu⟩
    · have hl : front ++ stem ++ [c] = s ++ v ++ [d] := by simpa using hu
      obtain rfl : c = d := by simpa using (append_inj' hl rfl).2
      exact ht (by simp)

theorem hasAny_eq_false_iff {needles : List Text} : s.hasAny needles = false ↔ ∀ n ∈ needles, s.has n = false := by
  rw [hasAny, any_eq_false]
  exact forall₂_congr fun n _ => by rw [Bool.not_eq_true]

theorem has_tail_eq_false {cs : Text} (h : Text.has (c :: cs) needle = false) :
    needle.isPrefixOf (c :: cs) = false ∧ Text.has cs needle = false := by
  rwa [has, Bool.or_eq_false_iff] at h

theorem startsWith_append_eq_false (s head t : Text) (h : ¬ head <+: s) (h' : ¬ s <+: head) :
    startsWith (s ++ t) head = false := by
  rw [startsWith, ← Bool.not_eq_true, isPrefixOf_iff_prefix]
  intro hp
  rcases prefix_or_prefix_of_prefix hp (prefix_append s t) with hp | hp
  · exact h hp
  · exact h' hp

/-! ## Splitting and replacing where nothing occurs -/

theorem splitGo_of_not_has : ∀ {s : Text}, s.has sep = false → splitGo sep 0 s = (s, [])
  | [], _ => rfl
  | c :: cs, h => by
    obtain ⟨hp, hcs⟩ := has_tail_eq_false h
    rw [splitGo, if_neg (by rw [hp]; decide), splitGo_of_not_has hcs]

theorem splitOn_of_not_has (h : s.has sep = false) : s.splitOn sep = [s] := by
  rw [splitOn, splitGo_of_not_has h]

theorem replaceGo_of_not_has : ∀ {s : Text}, s.has old = false → replaceGo old new 0 s = s
  | [], _ => rfl
  | c :: cs, h => by
    obtain ⟨hp, hcs⟩ := has_tail_eq_false h
    rw [replaceGo, if_neg (by rw [hp]; decide), replaceGo_of_not_has hcs]

theorem replaceAll_of_not_has (h : s.has old = false) : s.replaceAll old new = s :=
  replaceGo_of_not_has h

theorem replaceEach_of_not_has {s : Text} : ∀ {rules : List (Text × Text)},
    (∀ rule ∈ rules, s.has rule.1 = false) → s.replaceEach rules = s
  | [], _ => rfl
  | rule :: rules, h => by
    rw [replaceEach, foldl_cons, replaceAll_of_not_has (h rule mem_cons_self)]
    exact replaceEach_of_not_has fun r hr => h r (mem_cons_of_mem _ hr)

theorem has_append_of_notMem {c : Char} {cs t : Text} (ht : t.has (c :: cs) = false) : ∀ {front : Text},
    c ∉ front → has (front ++ t) (c :: cs) = false
  | [], _ => ht
  | d :: front, h => by
    obtain ⟨hd, hf⟩ := not_or.mp (fun hm => h (mem_cons.mpr hm))
    have ih := has_eq_false_iff.mp (has_append_of_notMem ht hf)
    rw [has_eq_false_iff, cons_append, infix_cons_iff, not_or]
    exact ⟨fun hp => hd (cons_prefix_cons.mp hp).1, ih⟩

theorem replaceAll_append_of_notMem {c : Char} {cs new : Text} (t : Text) : ∀ {front : Text}, c ∉ front →
    replaceAll (front ++ t) (c :: cs) new = front ++ replaceAll t (c :: cs) new
  | [], _ => rfl
  | d :: front, h => by
    obtain ⟨hd, hf⟩ := not_or.mp (fun hm => h (mem_cons.mpr hm))
    have hp : ¬ (c :: cs).isPrefixOf (d :: (front ++ t)) := by
      rw [List.isPrefixOf, Bool.and_eq_true, beq_iff_eq]
      exact fun hp => hd hp.1
    rw [cons_append, cons_append, replaceAll, replaceGo, if_neg hp]
    exact congrArg (d :: ·) (replaceAll_append_of_notMem t hf)

theorem replaceGo_skip {rest : Text} : ∀ (passed : Text),
    replaceGo old new passed.length (passed ++ rest) = replaceGo old new 0 rest
  | [] => rfl
  | _ :: passed => by rw [length_cons, cons_append, replaceGo, replaceGo_skip passed]

theorem replaceAll_self_append {old new : Text} (ho : old ≠ []) (rest : Text) :
    replaceAll (old ++ rest) old new = new ++ replaceAll rest old new := by
  obtain ⟨c, cs, rfl⟩ := exists_cons_of_ne_nil ho
  have hp : (c :: cs).isPrefixOf (c :: (cs ++ rest)) :=
    isPrefixOf_iff_prefix.mpr (prefix_append (c :: cs) rest)
  rw [replaceAll, cons_append, replaceGo, if_pos hp, length_cons, Nat.add_sub_cancel, replaceGo_skip, replaceAll]

/-! ## The first occurrence -/

theorem splitGo_skip {rest : Text} : ∀ (passed : Text),
    splitGo sep passed.length (passed ++ rest) = splitGo sep 0 rest
  | [] => rfl
  | _ :: passed => by rw [length_cons, cons_append, splitGo, splitGo_skip passed]

theorem splitGo_append {sep : Text} (hs : sep ≠ []) (rest : Text) : ∀ (before : Text),
    (∀ k < before.length, ¬ sep <+: (before ++ (sep ++ rest)).drop k) → splitGo sep 0 (before ++ (sep ++ rest))
        = (before, (splitGo sep 0 rest).1 :: (splitGo sep 0 rest).2)
  | [], _ => by
    obtain ⟨c, cs, rfl⟩ := exists_cons_of_ne_nil hs
    have hp : (c :: cs).isPrefixOf (c :: (cs ++ rest)) :=
      isPrefixOf_iff_prefix.mpr (prefix_append (c :: cs) rest)
    rw [nil_append, cons_append, splitGo, if_pos hp, length_cons, Nat.add_sub_cancel, splitGo_skip]
  | c :: before, h => by
    have hp : ¬ sep.isPrefixOf (c :: (before ++ (sep ++ rest))) := fun hp =>
      h 0 (by simp) ( isPrefixOf_iff_prefix.mp hp)
    have ih := splitGo_append hs rest before fun k hk => h (k + 1) (by simpa using hk)
    rw [cons_append, splitGo, if_neg hp, ih]

/-- **A separator that ends in a character it has nowhere else cannot begin inside a text that lacks
it and end behind that text.** -/
theorem not_prefix_drop_of_not_has (hc : c ∉ stem)
    (hb : before.has (stem ++ [c]) = false) {k : Nat} (hk : k < before.length) :
    ¬ stem ++ [c] <+: (before ++ ((stem ++ [c]) ++ rest)).drop k := by
  intro hp
  obtain ⟨tail, ht⟩ := hp
  rw [drop_append_of_le_length (Nat.le_of_lt hk)] at ht
  rcases Nat.lt_or_ge (before.length - k) (stem.length + 1) with hlt | hge
  · -- the last character of the occurrence falls into `stem`
    have hl : ((stem ++ [c]) ++ tail)[stem.length]? = some c := by simp
    have hr : (before.drop k ++ ((stem ++ [c]) ++ rest))[stem.length]?
        = stem[stem.length - (before.drop k).length]? := by
      rw [append_assoc stem, getElem?_append_right (by rw [length_drop]; omega),
        getElem?_append_left (by rw [length_drop]; omega)]
    rw [ht, hr] at hl
    exact hc (mem_of_getElem? hl)
  · refine has_eq_false_iff.mp hb ?_
    have hpre : stem ++ [c] <+: before.drop k := by
      refine prefix_of_prefix_length_le ⟨tail, ht⟩ (prefix_append _ _) ?_
      rw [length_drop, length_append, length_singleton]
      omega
    exact hpre.isInfix.trans (drop_suffix k before).isInfix

theorem firstPiece_append (hc : c ∉ stem) (hb : before.has (stem ++ [c]) = false) :
    (before ++ ((stem ++ [c]) ++ rest)).firstPiece (stem ++ [c]) = before := by
  rw [firstPiece, splitGo_append (by simp) rest before fun k hk => not_prefix_drop_of_not_has hc hb hk]

theorem firstPiece_method {receiver method : Text} (hm : method = stem ++ [c]) (hc : c ∉ stem) (hr : c ∉ receiver)
    (hb : before.has method = false) :
    (before ++ (receiver ++ (method ++ rest))).firstPiece method = before ++ receiver := by
  subst hm
  rw [← append_assoc]
  exact firstPiece_append hc (has_append_eq_false hb hr)

end Text

end QtMigration
