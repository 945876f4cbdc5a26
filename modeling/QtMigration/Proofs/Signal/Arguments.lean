import QtMigration.Proofs.Text.Rows
import QtMigration.Proofs.Text.Search
import QtMigration.Proofs.Text.Split
import QtMigration.Proofs.Text.Trim
import QtMigration.Signal.Arguments

/-!
# Proofs/Signal/Arguments — what cutting a text into arguments does

`nesting` says where a text stops: how many parentheses are open and, inside them, which quote. **Arguments
that are one group each are read back** (`splitArguments_groups`).
-/

namespace QtMigration

open List Text

variable {d : Nat} {q : Option Char} {c : Char} {a p s x : Text} {g ps : List Text}

/-! ## The scan -/

/-- One step of the scan: the number of open parentheses and, inside them, the quote of an open string. -/
def advance : Nat × Option Char → Char → Nat × Option Char
  | (0, _), c => (if c == '(' then 1 else 0, none)
  | (d + 1, none), c =>
    if c == '"' || c == '\'' then (d + 1, some c)
    else (if c == '(' then d + 2 else if c == ')' then d else d + 1, none)
  | (d + 1, some q), c => (d + 1, if c == q then none else some q)

def nesting (s : Text) : Nat × Option Char := s.foldl advance (0, none)

def leftOpen (s : Text) : Bool := (nesting s).1 != 0 || (nesting s).2.isSome

def OuterComma (s a : Text) : Prop := (∃ b, s = a ++ ',' :: b) ∧ leftOpen a = false

def IsPiece (x : Text) : Prop := leftOpen x = false ∧ ∀ a, ¬ OuterComma x a

def CutBehind (ps : List Text) (a : Text) : Prop :=
  ∃ front rest, front ≠ [] ∧ rest ≠ [] ∧ ps = front ++ rest ∧ a = Text.join "," front

theorem leftOpen_eq_false_iff : leftOpen s = false ↔ (nesting s).1 = 0 := by
  have hq : (nesting s).1 = 0 → (nesting s).2 = none := by
    rcases eq_nil_or_concat s with rfl | ⟨t, c, rfl⟩
    · exact fun _ => rfl
    · rw [nesting, concat_eq_append, foldl_append]
      generalize t.foldl advance (0, none) = st
      intro h
      match st with
      | (0, _) => rfl
      | (d + 1, none) =>
        simp only [foldl_cons, foldl_nil, advance] at h ⊢
        split at h
        · cases h
        next hp => rw [if_neg hp]
      | (d + 1, some q) => cases h
  rw [leftOpen, Bool.or_eq_false_iff, bne_eq_false_iff_eq]
  exact ⟨And.left, fun h => ⟨h, by rw [hq h]; rfl⟩⟩

theorem outerPieces_zero (q : Option Char) (s : Text) : outerPieces 0 q s = outerPieces 0 none s := by
  cases s <;> rfl

theorem outerPieces_cons (h : d = 0 → c ≠ ',') (cs : Text) :
    outerPieces d q (c :: cs) = consPiece c (outerPieces (advance (d, q) c).1 (advance (d, q) c).2 cs) := by
  match d, q with
  | 0, q =>
    rw [outerPieces, if_neg (by simpa using h rfl), advance]
    split <;> rfl
  | d + 1, none =>
    rw [outerPieces, advance]
    split
    · rfl
    split
    · rfl
    · split <;> rfl
  | d + 1, some q =>
    rw [outerPieces, advance]
    split <;> rfl

theorem outerPieces_append : ∀ (x : Text) (d : Nat) (q : Option Char), (x.foldl advance (d, q)).1 = 0 →
    (∀ a b, x = a ++ ',' :: b → (a.foldl advance (d, q)).1 ≠ 0) → ∀ rest,
    outerPieces d q (x ++ rest) = (outerPieces 0 none rest).map fun r => (x ++ r.1, r.2)
  | [], d, q, hs, _, rest => by
    obtain rfl : d = 0 := hs
    rw [nil_append, outerPieces_zero]
    simp
  | c :: x, d, q, hs, hc, rest => by
    have hi : d = 0 → c ≠ ',' := by
      rintro rfl rfl
      exact hc [] x rfl rfl
    have hl : ∀ a b, x = a ++ ',' :: b → (a.foldl advance (advance (d, q) c)).1 ≠ 0 := fun a b hx =>
      hc (c :: a) b (by rw [hx, cons_append])
    have hr : outerPieces (advance (d, q) c).1 (advance (d, q) c).2 (x ++ rest) = _ :=
      outerPieces_append x _ _ hs hl rest
    rw [cons_append, outerPieces_cons hi, hr]
    cases outerPieces 0 none rest <;> rfl

theorem IsPiece.append (h : IsPiece x) (rest : Text) :
    outerPieces 0 none (x ++ rest) = (outerPieces 0 none rest).map fun r => (x ++ r.1, r.2) :=
  outerPieces_append x 0 none (leftOpen_eq_false_iff.mp h.1) (fun a b hx hs =>
    h.2 a ⟨⟨b, hx⟩, leftOpen_eq_false_iff.mpr hs⟩) rest

theorem IsPiece.blank_cons (h : IsPiece x) : IsPiece (' ' :: x) := by
  refine ⟨h.1, ?_⟩
  rintro a ⟨⟨b, hb⟩, ho⟩
  cases a with
  | nil => cases hb
  | cons c a =>
    obtain ⟨rfl, rfl⟩ := cons.inj hb
    exact h.2 a ⟨⟨b, rfl⟩, ho⟩

theorem outerPieces_cases : ∀ (s : Text) (d : Nat) (q : Option Char),
    (outerPieces d q s = none ∧ (s.foldl advance (d, q)).1 ≠ 0) ∨
    ∃ p ps, outerPieces d q s = some (p, ps) ∧ (s.foldl advance (d, q)).1 = 0 ∧ Text.join "," (p :: ps) = s ∧
      (p.foldl advance (d, q)).1 = 0 ∧ (∀ a b, p = a ++ ',' :: b → (a.foldl advance (d, q)).1 ≠ 0) ∧
      ∀ x ∈ ps, IsPiece x
  | [], 0, q => .inr ⟨[], [], rfl, rfl, rfl, rfl, by simp, by simp⟩
  | [], d + 1, q => .inl ⟨rfl, Nat.succ_ne_zero d⟩
  | c :: s, d, q => by
    by_cases hco : d = 0 ∧ c = ','
    · obtain ⟨rfl, rfl⟩ := hco
      have hcut : outerPieces 0 q (',' :: s) = (outerPieces 0 none s).map fun r => ([], r.1 :: r.2) := rfl
      rcases outerPieces_cases s 0 none with ⟨hn, ho⟩ | ⟨p, ps, hs, hst, hj, hp, hi, hps⟩
      · exact .inl ⟨by rw [hcut, hn]; rfl, ho⟩
      · refine .inr ⟨[], p :: ps, by rw [hcut, hs]; rfl, hst, ?_, rfl, by simp, forall_mem_cons.mpr ⟨?_, hps⟩⟩
        · rw [join_cons _ _ (cons_ne_nil p ps), hj]
          rfl
        · refine ⟨leftOpen_eq_false_iff.mpr hp, ?_⟩
          rintro a ⟨⟨b, hb⟩, hcl⟩
          exact hi a b hb (leftOpen_eq_false_iff.mp hcl)
    · rw [outerPieces_cons (fun hd hc => hco ⟨hd, hc⟩), foldl_cons]
      rcases outerPieces_cases s (advance (d, q) c).1 (advance (d, q) c).2 with
        ⟨hn, ho⟩ | ⟨p, ps, hs, hst, hj, hp, hi, hps⟩
      · exact .inl ⟨by rw [hn]; rfl, ho⟩
      · refine .inr ⟨c :: p, ps, by rw [hs]; rfl, hst, ?_, hp, ?_, hps⟩
        · rw [← hj]
          cases ps <;> rfl
        · intro a b hb
          cases a with
          | nil =>
            obtain ⟨rfl, -⟩ := cons.inj hb
            exact fun hd => hco ⟨hd, rfl⟩
          | cons e a =>
            obtain ⟨rfl, hp⟩ := cons.inj hb
            exact hi a b hp

theorem isPiece_of_outerPieces (h : outerPieces 0 none s = some (p, ps)) : ∀ x ∈ p :: ps, IsPiece x := by
  rcases outerPieces_cases s 0 none with ⟨hn, -⟩ | ⟨p', ps', hs, -, -, hp, hi, hps⟩
  · rw [h] at hn
    cases hn
  · cases h.symm.trans hs
    refine forall_mem_cons.mpr ⟨⟨leftOpen_eq_false_iff.mpr hp, ?_⟩, hps⟩
    rintro a ⟨⟨b, hb⟩, hc⟩
    exact hi a b hb (leftOpen_eq_false_iff.mp hc)

theorem join_outerPieces (h : outerPieces d q s = some (p, ps)) : Text.join "," (p :: ps) = s := by
  rcases outerPieces_cases s d q with ⟨hn, -⟩ | ⟨p', ps', hs, -, hj, -⟩
  · rw [h] at hn
    cases hn
  · cases h.symm.trans hs
    exact hj

theorem outerPieces_join : ∀ {ps : List Text} {p : Text}, (∀ x ∈ p :: ps, IsPiece x) →
    outerPieces 0 none (Text.join "," (p :: ps)) = some (p, ps)
  | [], p, h => by
    have ho := (h p mem_cons_self).append []
    rw [append_nil] at ho
    rw [Text.join, ho]
    simp [outerPieces]
  | x :: ps, p, h => by
    obtain ⟨hp, hps⟩ := forall_mem_cons.mp h
    have hc : ∀ t, outerPieces 0 none ("," ++ t) = (outerPieces 0 none t).map fun r => ([], r.1 :: r.2) := fun _ => rfl
    rw [join_cons _ _ (cons_ne_nil x ps), append_assoc, hp.append, hc, outerPieces_join hps]
    simp

/-! ## Cuts -/

theorem nesting_piece_comma (h : leftOpen p = false) (a : Text) : nesting (p ++ ',' :: a) = nesting a := by
  have hs : nesting p = (0, none) := by
    rw [leftOpen, Bool.or_eq_false_iff, bne_eq_false_iff_eq] at h
    exact Prod.ext h.1 (Option.isNone_iff_eq_none.mp (by simpa using h.2))
  rw [nesting, foldl_append, ← nesting, hs]
  rfl

theorem join_comma (p x : Text) (ps : List Text) :
    Text.join "," (p :: x :: ps) = p ++ ',' :: Text.join "," (x :: ps) := by
  rw [join_cons _ _ (cons_ne_nil x ps), append_assoc]
  rfl

theorem join_append {ps : List Text} (hps : ps ≠ []) : ∀ {g : List Text}, g ≠ [] →
    Text.join "," (g ++ ps) = Text.join "," g ++ ',' :: Text.join "," ps
  | [x], _ => by
    obtain ⟨y, ps, rfl⟩ := exists_cons_of_ne_nil hps
    exact join_comma x y ps
  | x :: y :: g, _ => by
    rw [cons_append, cons_append, join_comma, join_comma, ← cons_append, join_append hps (cons_ne_nil y g)]
    simp

theorem cutBehind_cons : CutBehind (p :: x :: ps) a ↔ a = p ∨ ∃ b, a = p ++ ',' :: b ∧ CutBehind (x :: ps) b := by
  constructor
  · rintro ⟨front, rest, hf, hr, heq, rfl⟩
    obtain ⟨y, front, rfl⟩ := exists_cons_of_ne_nil hf
    obtain ⟨rfl, ht⟩ := cons.inj heq
    cases front with
    | nil => exact .inl rfl
    | cons y front => exact .inr ⟨_, join_comma p y front, _, rest, cons_ne_nil y front, hr, ht, rfl⟩
  · rintro (rfl | ⟨b, rfl, front, rest, hf, hr, heq, rfl⟩)
    · exact ⟨[a], x :: ps, cons_ne_nil a [], cons_ne_nil x ps, rfl, rfl⟩
    · obtain ⟨y, front, rfl⟩ := exists_cons_of_ne_nil hf
      exact ⟨p :: y :: front, rest, cons_ne_nil p _, hr, by rw [heq]; rfl, (join_comma p y front).symm⟩

theorem cutBehind_iff : ∀ {ps : List Text} {a : Text}, ps ≠ [] → (∀ x ∈ ps, IsPiece x) →
    (CutBehind ps a ↔ OuterComma (Text.join "," ps) a)
  | [p], a, _, h => by
    refine iff_of_false ?_ ((h p mem_cons_self).2 a)
    rintro ⟨front, rest, hf, hre, hps, -⟩
    rcases append_eq_singleton_iff.mp hps.symm with ⟨rfl, -⟩ | ⟨-, rfl⟩
    · exact hf rfl
    · exact hre rfl
  | p :: x :: ps, a, _, h => by
    obtain ⟨hp, hps⟩ := forall_mem_cons.mp h
    have hn : ∀ {b}, CutBehind (x :: ps) b ↔ OuterComma (Text.join "," (x :: ps)) b :=
      cutBehind_iff (cons_ne_nil x ps) hps
    have ho : ∀ b, leftOpen (p ++ ',' :: b) = leftOpen b := fun b => by
      rw [leftOpen, nesting_piece_comma hp.1, ← leftOpen]
    rw [cutBehind_cons, join_comma]
    constructor
    · rintro (rfl | ⟨b, rfl, hb⟩)
      · exact ⟨⟨_, rfl⟩, hp.1⟩
      · obtain ⟨⟨t, ht⟩, hc⟩ := hn.mp hb
        exact ⟨⟨t, by rw [ht, append_assoc]; rfl⟩, by rw [ho, hc]⟩
    · rintro ⟨⟨t, ht⟩, hc⟩
      rcases append_eq_append_iff.mp ht with ⟨r, rfl, hr⟩ | ⟨r, rfl, hr⟩
      · cases r with
        | nil => exact .inl (append_nil p)
        | cons c r =>
          obtain ⟨rfl, hj⟩ := cons.inj hr
          exact .inr ⟨r, rfl, hn.mpr ⟨⟨t, hj⟩, by rwa [ho] at hc⟩⟩
      · cases r with
        | nil => exact .inl (append_nil a).symm
        | cons c r =>
          obtain ⟨rfl, -⟩ := cons.inj hr
          exact absurd ⟨⟨r, rfl⟩, hc⟩ (hp.2 a)

/-! ## Groups -/

def OpenLambda (g : List Text) : Prop := has (g.headD []) "lambda " = true ∧ ∀ p ∈ g, p.has ":" = false

/-- **The pieces in groups of neighbours**: wherever two of them are joined, a `lambda` waits for its colon, and
only the last group may still wait at its end. -/
structure Grouped (ps : List Text) (groups : List (List Text)) : Prop where
  flatten : groups.flatten = ps
  filled : ∀ g ∈ groups, g ≠ []
  inside : ∀ g ∈ groups, ∀ front rest, g = front ++ rest → front ≠ [] → rest ≠ [] → OpenLambda front
  between : ∀ g ∈ groups.dropLast, ¬ OpenLambda g

theorem Grouped.cons {groups : List (List Text)} (h : Grouped ps groups) (hne : g ≠ [])
    (hi : ∀ front rest, g = front ++ rest → front ≠ [] → rest ≠ [] → OpenLambda front)
    (hl : ¬ OpenLambda g) : Grouped (g ++ ps) (g :: groups) := by
  refine ⟨by rw [flatten_cons, h.flatten], forall_mem_cons.mpr ⟨hne, h.filled⟩,
    forall_mem_cons.mpr ⟨hi, h.inside⟩, ?_⟩
  cases hg : groups with
  | nil => simp
  | cons g' groups' =>
    rw [dropLast_cons_cons, ← hg]
    exact forall_mem_cons.mpr ⟨hl, h.between⟩

theorem not_append_of_singleton {front rest : List Text} (h : [p] = front ++ rest) (hf : front ≠ []) : rest = [] :=
  (append_eq_singleton_iff.mp h.symm).elim (fun h => absurd h.1 hf) And.right

theorem OpenLambda.of_append {front rest : List Text} (h : OpenLambda (front ++ rest)) (hne : front ≠ []) :
    OpenLambda front := by
  obtain ⟨x, front, rfl⟩ := exists_cons_of_ne_nil hne
  exact ⟨h.1, fun p hp => h.2 p (mem_append_left _ hp)⟩

theorem OpenLambda.inside (h : OpenLambda g) (p : Text) (front rest : List Text)
    (heq : g ++ [p] = front ++ rest) (hf : front ≠ []) (hr : rest ≠ []) : OpenLambda front := by
  obtain ⟨rest, y, rfl⟩ := (eq_nil_or_concat rest).resolve_left hr
  rw [concat_eq_append, ← append_assoc] at heq
  obtain ⟨rfl, -⟩ := append_inj' heq rfl
  exact h.of_append hf

mutual

theorem exists_groups : ∀ ps : List Text, ∃ groups, Grouped ps groups ∧
    joinLambdas none ps = groups.map (Text.join ",")
  | [] => ⟨[], ⟨rfl, by simp, by simp, by simp⟩, rfl⟩
  | p :: ps => by
    rw [joinLambdas]
    split
    next h =>
      rw [Bool.and_eq_true, Bool.not_eq_true'] at h
      exact exists_groups_open ps (cons_ne_nil p []) ⟨h.1, forall_mem_singleton.mpr h.2⟩
    next h =>
      obtain ⟨groups, hg, hj⟩ := exists_groups ps
      refine ⟨[p] :: groups, hg.cons (cons_ne_nil p []) (fun front rest heq hf hr =>
        absurd (not_append_of_singleton heq hf) hr) fun ho => h ?_, by rw [hj]; rfl⟩
      rw [Bool.and_eq_true, Bool.not_eq_true']
      exact ⟨ho.1, ho.2 p mem_cons_self⟩

theorem exists_groups_open : ∀ (ps : List Text) {g : List Text}, g ≠ [] → OpenLambda g →
    ∃ groups, Grouped (g ++ ps) groups ∧ joinLambdas (some (Text.join "," g)) ps = groups.map (Text.join ",")
  | [], g, hne, hg => ⟨[g], ⟨by simp, by simpa using hne, forall_mem_singleton.mpr fun front rest heq hf _ =>
      (heq ▸ hg).of_append hf, by simp⟩, rfl⟩
  | p :: ps, g, hne, hg => by
    have hl : Text.join "," g ++ "," ++ p = Text.join "," (g ++ [p]) := by
      rw [join_append (cons_ne_nil p []) hne, append_assoc]
      rfl
    rw [joinLambdas, hl, ← singleton_append, ← append_assoc]
    split
    next hc =>
      obtain ⟨groups, hgr, hj⟩ := exists_groups ps
      refine ⟨(g ++ [p]) :: groups, hgr.cons (by simp) (hg.inside p) fun ho => ?_, by rw [hj]; rfl⟩
      rw [ho.2 p (by simp)] at hc
      cases hc
    next hc =>
      obtain ⟨x, g, rfl⟩ := exists_cons_of_ne_nil hne
      have ho : OpenLambda (x :: g ++ [p]) :=
        ⟨hg.1, forall_mem_append.mpr ⟨hg.2, forall_mem_singleton.mpr (Bool.eq_false_iff.mpr hc)⟩⟩
      exact exists_groups_open ps (by simp) ho

end

theorem flatten_ne_nil_of_filled {groups : List (List Text)} (hne : groups ≠ []) (h : ∀ g ∈ groups, g ≠ []) :
    groups.flatten ≠ [] := by
  obtain ⟨g, groups, rfl⟩ := exists_cons_of_ne_nil hne
  rw [flatten_cons, ne_eq, append_eq_nil_iff]
  exact fun hn => h g mem_cons_self hn.1

theorem join_groups : ∀ {groups : List (List Text)}, (∀ g ∈ groups, g ≠ []) →
    Text.join "," (groups.map (Text.join ",")) = Text.join "," groups.flatten
  | [], _ => rfl
  | [g], _ => by simp [Text.join]
  | g :: g' :: groups, h => by
    obtain ⟨hg, hgr⟩ := forall_mem_cons.mp h
    rw [map_cons, map_cons, join_comma, ← map_cons, join_groups hgr, ← join_append
      (flatten_ne_nil_of_filled (cons_ne_nil g' groups) hgr) hg, ← flatten_cons]

theorem joinLambdas_spec (hne : ps ≠ []) :
    joinLambdas none ps ≠ [] ∧ Text.join "," (joinLambdas none ps) = Text.join "," ps := by
  obtain ⟨groups, hg, hj⟩ := exists_groups ps
  rw [hj, join_groups hg.filled, hg.flatten]
  refine ⟨fun hn => hne ?_, rfl⟩
  rw [← hg.flatten, map_eq_nil_iff.mp hn]
  rfl

/-! ## Nothing is lost -/

/-- `a` stops in one of the pieces, in a `lambda` whose colon has not come: the keyword is in the first of its
outer pieces, and there is no colon so far. -/
def InLambda (pieces : List Text) (a : Text) : Prop :=
  ∃ front run piece rest, pieces = front ++ piece :: rest ∧ a = Text.join "," (front ++ [run]) ∧
    run ++ [','] <+: piece ∧ run.has ":" = false ∧
      ∃ first, IsPiece first ∧ (run = first ∨ OuterComma run first) ∧ first.has "lambda " = true

theorem has_colon_join : ∀ {g : List Text}, (∀ p ∈ g, p.has ":" = false) → Text.has (Text.join "," g) ":" = false
  | [], _ => rfl
  | [p], h => h p mem_cons_self
  | p :: x :: g, h => by
    obtain ⟨hp, hg⟩ := forall_mem_cons.mp h
    rw [join_comma, has_append_cons (by decide), hp, has_colon_join hg]
    rfl

section Cut

variable {groups : List (List Text)} (h : Grouped ps groups)

include h

theorem Grouped.cutBehind_of (hc : CutBehind (groups.map (Text.join ",")) a) : CutBehind ps a := by
  obtain ⟨front, rest, hf, hr, heq, rfl⟩ := hc
  obtain ⟨before, behind, rfl, rfl, rfl⟩ := map_eq_append_iff.mp heq
  obtain ⟨hb, hbe⟩ := forall_mem_append.mp h.filled
  refine ⟨before.flatten, behind.flatten, flatten_ne_nil_of_filled (by simpa using hf) hb,
    flatten_ne_nil_of_filled (by simpa using hr) hbe, ?_, join_groups hb⟩
  rw [← h.flatten, flatten_append]

theorem Grouped.inLambda_or_cutBehind (hps : ∀ x ∈ ps, IsPiece x) (hc : CutBehind ps a) :
    CutBehind (groups.map (Text.join ",")) a ∨ InLambda (groups.map (Text.join ",")) a := by
  obtain ⟨front, rest, hf, hr, heq, rfl⟩ := hc
  rw [← h.flatten] at heq
  rcases flatten_eq_append_iff.mp heq with ⟨before, behind, rfl, rfl, rfl⟩ | ⟨before, run, x, tail, behind, rfl, rfl, rfl⟩
  · refine .inl ⟨before.map (Text.join ","), behind.map (Text.join ","), ?_, ?_, by rw [map_append], ?_⟩
    · rintro hn
      exact hf (by rw [map_eq_nil_iff.mp hn]; rfl)
    · rintro hn
      exact hr (by rw [map_eq_nil_iff.mp hn]; rfl)
    · exact (join_groups (forall_mem_append.mp h.filled).1).symm
  · have hb : ∀ g ∈ before, g ≠ [] := (forall_mem_append.mp h.filled).1
    cases run with
    | nil =>
      refine .inl ⟨before.map (Text.join ","), _, ?_, by simp, map_append, ?_⟩
      · rintro hn
        exact hf (by rw [map_eq_nil_iff.mp hn]; rfl)
      · rw [append_nil]
        exact (join_groups hb).symm
    | cons y run =>
      have ho : OpenLambda (y :: run) :=
        h.inside _ (mem_append_right _ mem_cons_self) _ (x :: tail) rfl (cons_ne_nil y run) (cons_ne_nil x tail)
      have hy : IsPiece y := hps y (by rw [← h.flatten]; simp)
      have hp : Text.join "," (y :: run ++ x :: tail) = Text.join "," (y :: run) ++ ',' :: Text.join "," (x :: tail) :=
        join_append (cons_ne_nil x tail) (cons_ne_nil y run)
      refine .inr ⟨before.map (Text.join ","), Text.join "," (y :: run), _, _, by rw [map_append, map_cons], ?_, ?_,
        has_colon_join ho.2, y, hy, ?_, ho.1⟩
      · have hrun : ∀ g ∈ before ++ [y :: run], g ≠ [] := forall_mem_append.mpr ⟨hb, by simp⟩
        have hj := join_groups hrun
        rw [map_append, flatten_append, flatten_singleton] at hj
        exact hj.symm
      · rw [hp]
        exact ⟨Text.join "," (x :: tail), by simp⟩
      · cases run with
        | nil => exact .inl rfl
        | cons z run => exact .inr ⟨⟨_, join_comma y z run⟩, hy.1⟩

end Cut

theorem trim_isEmpty_eq (s : Text) : s.trim.isEmpty = s.isEmptyLine := by
  rw [trim_isEmpty, trimLeft, trimLeftWhile, isEmptyLine]
  induction s with
  | nil => rfl
  | cons c s ih =>
    cases hc : isBlank c with
    | true => rw [dropWhile_cons_of_pos hc, ih, all_cons, hc, Bool.true_and]
    | false => rw [dropWhile_cons_of_neg (by simp [hc]), all_cons, hc]; rfl

theorem trimArguments_eq : ∀ {pieces : List Text}, pieces ≠ [] → trimArguments pieces =
    if isEmptyLine (Text.join "," pieces) then [] else pieces.map Text.trim
  | [p], _ => by
    rw [trimArguments, trim_isEmpty_eq]
    rfl
  | p :: x :: pieces, _ => by
    have hf : isEmptyLine (Text.join "," (p :: x :: pieces)) = false := by
      rw [join_comma, isEmptyLine, all_append, all_cons, show isBlank ',' = false by decide, Bool.false_and, Bool.and_false]
    rw [hf, trimArguments]
    all_goals simp

theorem infix_join_of_mem (sep : Text) {p : Text} : ∀ {ps : List Text}, p ∈ ps → p <:+: Text.join sep ps
  | [q], h => by
    rw [mem_singleton.mp h]
    exact infix_rfl
  | q :: r :: ps, h => by
    rw [join_cons _ _ (cons_ne_nil r ps)]
    rcases mem_cons.mp h with rfl | h
    · rw [append_assoc]
      exact (prefix_append _ _).isInfix
    · exact (infix_join_of_mem sep h).trans (suffix_append _ _).isInfix

theorem infix_of_splitArguments {args : List Text} {arg : Text} (h : splitArguments s = .ok args) (ha : arg ∈ args) :
    arg <:+: s := by
  rw [splitArguments] at h
  split at h
  · cases h
  next p ps hp =>
    obtain ⟨hne, hj⟩ := joinLambdas_spec (cons_ne_nil p ps)
    rw [trimArguments_eq hne] at h
    cases h
    split at ha
    · cases ha
    · obtain ⟨piece, hpi, rfl⟩ := mem_map.mp ha
      have hin := infix_join_of_mem "," hpi
      rw [hj, join_outerPieces hp] at hin
      exact ( trim_infix piece).trans hin

/-- **Cutting a text into arguments loses no character**, and it fails exactly if the text stops inside
parentheses or a string. -/
theorem splitArguments_loses_nothing (s : Text) :
    (splitArguments s = .error .textEnds ↔ leftOpen s = true) ∧
      (leftOpen s = false → ∃ pieces, Text.join "," pieces = s ∧
        splitArguments s = .ok (if s.isEmptyLine then [] else pieces.map Text.trim) ∧
        (∀ a, CutBehind pieces a → OuterComma s a) ∧
        ∀ a, OuterComma s a → CutBehind pieces a ∨ InLambda pieces a) := by
  rcases outerPieces_cases s 0 none with ⟨hnone, hopen⟩ | ⟨p, ps, hsome, hstop, hjoin, -⟩
  · have hleft : leftOpen s = true := by
      rw [← Bool.not_eq_false, leftOpen_eq_false_iff]
      exact hopen
    exact ⟨iff_of_true (by rw [splitArguments, hnone]) hleft, fun h => by rw [hleft] at h; cases h⟩
  · have hleft : leftOpen s = false := leftOpen_eq_false_iff.mpr hstop
    have hpieces := isPiece_of_outerPieces hsome
    obtain ⟨groups, hgroups, hjoined⟩ := exists_groups (p :: ps)
    obtain ⟨hne, hs⟩ := joinLambdas_spec (cons_ne_nil p ps)
    rw [hjoined] at hne hs
    rw [hjoin] at hs
    have hresult : splitArguments s = .ok (if s.isEmptyLine then [] else (groups.map (Text.join ",")).map Text.trim) := by
      rw [splitArguments, hsome]
      dsimp only
      rw [hjoined, trimArguments_eq hne, hs]
    have hcuts : ∀ {a}, CutBehind (p :: ps) a ↔ OuterComma s a := fun {a} => by
      rw [cutBehind_iff (cons_ne_nil p ps) hpieces, hjoin]
    refine ⟨iff_of_false (by rw [hresult]; simp) (by simp [hleft]), fun _ => ⟨_, hs, hresult, fun a ha => ?_, fun a ha => ?_⟩⟩
    · exact hcuts.mp (hgroups.cutBehind_of ha)
    · exact hgroups.inLambda_or_cutBehind hpieces (hcuts.mpr ha)

/-! ## Arguments are read back -/

/-- The outer pieces of one argument: a single one without a `lambda`, or those from the keyword to the colon. -/
def IsArgumentGroup (g : List Text) : Prop :=
  (∃ p, g = [p] ∧ p.has "lambda " = false) ∨
    (has (g.headD []) "lambda " = true ∧
      ∃ front last, g = front ++ [last] ∧ (∀ p ∈ front, p.has ":" = false) ∧ last.has ":" = true)

/-- **A well-formed argument**: neither empty nor blank at its ends, closed, and one argument by its outer pieces. -/
structure WellFormed (arg : Text) : Prop where
  filled : arg ≠ []
  trimmed : arg.trim = arg
  group : ∃ g, arg = Text.join "," g ∧ (∀ p ∈ g, IsPiece p) ∧ IsArgumentGroup g

theorem joinLambdas_open {last : Text} (hla : last.has ":") (rest : List Text) :
    ∀ {mid g : List Text}, g ≠ [] → (∀ p ∈ mid, p.has ":" = false) →
      joinLambdas (some (Text.join "," g)) (mid ++ last :: rest) = Text.join "," (g ++ (mid ++ [last])) :: joinLambdas none rest
  | [], g, hne, _ => by
    rw [nil_append, joinLambdas, if_pos hla, nil_append, join_append (cons_ne_nil last []) hne, append_assoc]
    rfl
  | p :: mid, g, hne, hm => by
    obtain ⟨hp, hm⟩ := forall_mem_cons.mp hm
    have hl : Text.join "," g ++ "," ++ p = Text.join "," (g ++ [p]) := by
      rw [join_append (cons_ne_nil p []) hne, append_assoc]
      rfl
    rw [cons_append, joinLambdas, hp, if_neg Bool.false_ne_true, hl, joinLambdas_open hla rest (by simp) hm]
    simp

theorem joinLambdas_group (h : IsArgumentGroup g) (rest : List Text) :
    joinLambdas none (g ++ rest) = Text.join "," g :: joinLambdas none rest := by
  rcases h with ⟨p, rfl, hp⟩ | ⟨hk, front, last, rfl, hf, hl⟩
  · rw [singleton_append, joinLambdas, hp, Bool.false_and, if_neg Bool.false_ne_true]
    rfl
  · cases front with
    | nil =>
      rw [nil_append, singleton_append, joinLambdas, hl, Bool.not_true, Bool.and_false, if_neg Bool.false_ne_true]
      rfl
    | cons x front =>
      obtain ⟨hx, hf⟩ := forall_mem_cons.mp hf
      rw [cons_append, cons_append, append_assoc, singleton_append, joinLambdas, hx, show x.has _ = true from hk,
        if_pos (by decide)]
      exact joinLambdas_open hl rest (cons_ne_nil x []) hf

theorem IsArgumentGroup.blank_cons (h : IsArgumentGroup (p :: ps)) : IsArgumentGroup ((' ' :: p) :: ps) := by
  have hs : ∀ c cs, c ≠ ' ' → Text.has (' ' :: p) (c :: cs) = p.has (c :: cs) := fun c cs hc => by
    simp [Text.has, List.isPrefixOf, hc]
  rcases h with ⟨x, heq, hx⟩ | ⟨hk, front, last, heq, hf, hl⟩
  · obtain ⟨rfl, rfl⟩ := cons.inj heq
    exact .inl ⟨_, rfl, (hs 'l' "ambda " (by decide)).trans hx⟩
  · refine .inr ⟨(hs 'l' "ambda " (by decide)).trans hk, ?_⟩
    cases front with
    | nil =>
      obtain ⟨rfl, rfl⟩ := cons.inj heq
      exact ⟨[], _, rfl, by simp, (hs ':' [] (by decide)).trans hl⟩
    | cons x front =>
      obtain ⟨rfl, rfl⟩ := cons.inj heq
      obtain ⟨hp, hf⟩ := forall_mem_cons.mp hf
      exact ⟨(' ' :: p) :: front, last, rfl, forall_mem_cons.mpr ⟨(hs ':' [] (by decide)).trans hp, hf⟩, hl⟩

theorem IsArgumentGroup.ne_nil (h : IsArgumentGroup g) : g ≠ [] := by
  rcases h with ⟨p, rfl, -⟩ | ⟨-, front, last, rfl, -⟩ <;> simp

theorem splitArguments_groups {groups : List (List Text)} (hne : groups ≠ []) (hp : ∀ g ∈ groups, ∀ p ∈ g, IsPiece p)
    (hgr : ∀ g ∈ groups, IsArgumentGroup g) : splitArguments (Text.join "," (groups.map (Text.join ","))) =
      .ok (trimArguments (groups.map (Text.join ","))) := by
  have hf : ∀ g ∈ groups, g ≠ [] := fun g hg => (hgr g hg).ne_nil
  have hj : joinLambdas none groups.flatten = groups.map (Text.join ",") := by
    clear hne hp hf
    induction groups with
    | nil => rfl
    | cons g groups ih =>
      obtain ⟨hg, hgr⟩ := forall_mem_cons.mp hgr
      rw [flatten_cons, joinLambdas_group hg, ih hgr, map_cons]
  obtain ⟨p, ps, hfl⟩ := exists_cons_of_ne_nil (flatten_ne_nil_of_filled hne hf)
  have ha : ∀ x ∈ p :: ps, IsPiece x := fun x hx => by
    rw [← hfl] at hx
    obtain ⟨g, hg, hx⟩ := mem_flatten.mp hx
    exact hp g hg x hx
  rw [join_groups hf, splitArguments, hfl, outerPieces_join ha]
  dsimp only
  rw [← hfl, hj]

theorem commaList_eq_join : ∀ (args : List Text) (arg : Text),
    Text.commaList (arg :: args) = Text.join "," (arg :: args.map (' ' :: ·))
  | [], arg => rfl
  | x :: args, arg => by
    have hb : ∀ ps : List Text, Text.join "," ((' ' :: x) :: ps) = ' ' :: Text.join "," (x :: ps) := fun ps => by
      cases ps <;> rfl
    rw [commaList_cons_cons, commaList_eq_join args x, map_cons, join_comma, hb]

theorem WellFormed.group_blank {arg : Text} (h : WellFormed arg) :
    ∃ g, ' ' :: arg = Text.join "," g ∧ (∀ p ∈ g, IsPiece p) ∧ IsArgumentGroup g := by
  obtain ⟨g, rfl, hpi, hg⟩ := h.group
  obtain ⟨p, ps, rfl⟩ := exists_cons_of_ne_nil hg.ne_nil
  obtain ⟨hp, hps⟩ := forall_mem_cons.mp hpi
  exact ⟨(' ' :: p) :: ps, by cases ps <;> rfl, forall_mem_cons.mpr ⟨hp.blank_cons, hps⟩, hg.blank_cons⟩

theorem exists_groups_of_forall : ∀ {texts : List Text},
    (∀ t ∈ texts, ∃ g, t = Text.join "," g ∧ (∀ p ∈ g, IsPiece p) ∧ IsArgumentGroup g) →
      ∃ groups : List (List Text), texts = groups.map (Text.join ",") ∧ (∀ g ∈ groups, ∀ p ∈ g, IsPiece p) ∧
        ∀ g ∈ groups, IsArgumentGroup g
  | [], _ => ⟨[], rfl, by simp, by simp⟩
  | t :: texts, h => by
    obtain ⟨⟨g, rfl, hp, hgr⟩, ht⟩ := forall_mem_cons.mp h
    obtain ⟨groups, rfl, ha, hg⟩ := exists_groups_of_forall ht
    exact ⟨g :: groups, rfl, forall_mem_cons.mpr ⟨hp, ha⟩, forall_mem_cons.mpr ⟨hgr, hg⟩⟩

/-- **Well-formed arguments are read back** from the text in which they are listed. -/
theorem splitArguments_reads_back {args : List Text} (hne : args ≠ []) (h : ∀ arg ∈ args, WellFormed arg) :
    splitArguments (Text.commaList args) = .ok args := by
  obtain ⟨arg, args, rfl⟩ := exists_cons_of_ne_nil hne
  obtain ⟨harg, hargs⟩ := forall_mem_cons.mp h
  have htexts : ∀ t ∈ arg :: args.map (' ' :: ·), ∃ g, t = Text.join "," g ∧ (∀ p ∈ g, IsPiece p) ∧ IsArgumentGroup g :=
    forall_mem_cons.mpr ⟨harg.group, forall_mem_map.mpr fun x hx => (hargs x hx).group_blank⟩
  obtain ⟨groups, hgroups, hpieces, hone⟩ := exists_groups_of_forall htexts
  have htrim : (arg :: args.map (' ' :: ·)).map Text.trim = arg :: args := by
    rw [map_cons, harg.trimmed, map_map]
    refine congrArg (arg :: ·) ((map_congr_left fun x hx => ?_).trans (map_id args))
    exact (trim_cons_blank (by decide) x).trans (hargs x hx).trimmed
  have hfull : isEmptyLine (Text.join "," (arg :: args.map (' ' :: ·))) = false := by
    have hpart : arg.isEmptyLine = false := by
      rw [← trim_isEmpty_eq, harg.trimmed, isEmpty_eq_false_iff]
      exact harg.filled
    cases args with
    | nil => exact hpart
    | cons x args => rw [map_cons, join_comma, isEmptyLine, all_append, ← isEmptyLine, hpart, Bool.false_and]
  rw [commaList_eq_join, hgroups, splitArguments_groups (by rintro rfl; cases hgroups) hpieces hone, ← hgroups,
    trimArguments_eq (cons_ne_nil arg _), hfull, htrim]
  rfl

theorem splitArguments_reads_back_callbacks :
    (∀ arg ∈ (["self.list", "lambda x, y: f(x, y)"] : List Text), WellFormed arg) ∧
      splitArguments "self.list, lambda x, y: f(x, y)" = .ok ["self.list", "lambda x, y: f(x, y)"] := by
  have hname : WellFormed "self.list" := ⟨by decide, by decide, ["self.list"], rfl,
    isPiece_of_outerPieces (s := "self.list") (by decide), .inl ⟨_, rfl, by decide⟩⟩
  have hpieces : ∀ p ∈ (["lambda x", " y: f(x, y)"] : List Text), IsPiece p :=
    isPiece_of_outerPieces (s := "lambda x, y: f(x, y)") (by decide)
  have hcallback : WellFormed "lambda x, y: f(x, y)" := ⟨by decide, by decide, _, by decide, hpieces,
    .inr ⟨by decide, ["lambda x"], " y: f(x, y)", rfl, by decide, by decide⟩⟩
  have hall : ∀ arg ∈ (["self.list", "lambda x, y: f(x, y)"] : List Text), WellFormed arg :=
    forall_mem_cons.mpr ⟨hname, forall_mem_singleton.mpr hcallback⟩
  exact ⟨hall, splitArguments_reads_back (by decide) hall⟩

end QtMigration
