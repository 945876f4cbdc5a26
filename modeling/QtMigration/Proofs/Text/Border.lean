import Mathlib.Data.List.Infix
import Mathlib.Data.Nat.ModEq
import QtMigration.Proofs.Text.Split

/-!
# Proofs/Text/Border — replacing on both sides of a border, and what replacing weighs

A replacement works on both sides of a border alone if no occurrence crosses it, and that is seen on the first
characters behind the border (`replaceAll_border`).
-/

namespace QtMigration

open List

namespace Text

variable {c : Char} {m : Nat} {b cs : Text}

variable {old new s : Text}

/-! ## Borders -/

theorem replaceGo_append {a : Text} (h : ∀ l r, old = l ++ r → l ≠ [] → r ≠ [] → l <:+ a → ¬ r <+: b) :
    ∀ n ≤ a.length, replaceGo old new n (a ++ b) = replaceGo old new n a ++ replaceGo old new 0 b := by
  induction a with
  | nil =>
    intro n hn
    obtain rfl := Nat.le_zero.mp hn
    rfl
  | cons c a ih =>
    have ih := ih fun l r hlr hl hr hs => h l r hlr hl hr (hs.trans (suffix_cons c a))
    intro n hn
    cases n with
    | succ n => exact ih n (Nat.le_of_succ_le_succ hn)
    | zero =>
      have hb : old <+: c :: (a ++ b) → old <+: c :: a := fun hp => by
        rcases prefix_or_prefix_of_prefix hp (prefix_append (c :: a) b) with hin | ⟨r, hr⟩
        · exact hin
        · rw [← hr]
          cases r with
          | nil => simp
          | cons d r =>
            exact absurd ((prefix_append_right_inj _).mp (hr ▸ hp)) (h _ _ hr.symm (by simp) (by simp) (suffix_refl _))
      rw [cons_append, replaceGo, replaceGo]
      simp only [ isPrefixOf_iff_prefix]
      by_cases hp : old <+: c :: a
      · have hle := hp.length_le
        have hp' : old <+: c :: (a ++ b) := hp.trans (prefix_append (c :: a) b)
        rw [if_pos hp, if_pos hp', ih _ (by rw [length_cons] at hle; omega), append_assoc]
      · rw [if_neg hp, if_neg fun hp' => hp (hb hp'), ih 0 (Nat.zero_le _)]
        rfl

theorem replaceAll_border (w a : Text) (hw : w <+: b)
    (h : ∀ r ∈ (old.drop 1).tails, r ≠ [] → ¬ r.take w.length <+: w) :
    replaceAll (a ++ b) old new = replaceAll a old new ++ replaceAll b old new := by
  refine replaceGo_append (fun l r hlr hl hr _ hp => ?_) 0 (Nat.zero_le _)
  obtain ⟨c, l, rfl⟩ := exists_cons_of_ne_nil hl
  have hm : r ∈ (old.drop 1).tails := by
    rw [mem_tails, hlr]
    exact suffix_append l r
  refine h r hm hr (prefix_of_prefix_length_le (( take_prefix _ r).trans hp) hw ?_)
  rw [length_take]
  exact Nat.min_le_left _ _

theorem replaceAll_cons_of_not (h : ¬ old <+: c :: s) :
    replaceAll (c :: s) old new = c :: replaceAll s old new := by
  rw [replaceAll, replaceGo, if_neg (by rwa [ isPrefixOf_iff_prefix])]
  rfl

theorem replaceEach_append_cons : ∀ {rules : List (Text × Text)},
    (∀ rule ∈ rules, c ∉ rule.1 ∧ rule.1 ≠ []) → ∀ a b : Text,
      replaceEach (a ++ c :: b) rules = replaceEach a rules ++ c :: replaceEach b rules
  | [], _, _, _ => rfl
  | rule :: rules, h, a, b => by
    obtain ⟨⟨hc, hne⟩, hru⟩ := forall_mem_cons.mp h
    have hb : replaceAll (a ++ c :: b) rule.1 rule.2 =
        replaceAll a rule.1 rule.2 ++ c :: replaceAll b rule.1 rule.2 := by
      rw [replaceAll_border [c] a (cons_prefix_cons.mpr ⟨rfl, nil_prefix⟩), replaceAll_cons_of_not]
      · intro hp
        obtain ⟨d, old, ho⟩ := exists_cons_of_ne_nil hne
        rw [ho] at hp hc
        exact hc ((cons_prefix_cons.mp hp).1 ▸ mem_cons_self)
      · intro r hr hne hpre
        obtain ⟨d, r, rfl⟩ := exists_cons_of_ne_nil hne
        obtain ⟨rfl, -⟩ := cons_prefix_cons.mp hpre
        exact hc (mem_of_mem_drop (((mem_tails _ _).mp hr).subset mem_cons_self))
    rw [replaceEach, foldl_cons, hb]
    exact replaceEach_append_cons hru _ _

/-! ## Weights -/

theorem eq_of_append_cons : ∀ {x y s t : Text}, x ++ c :: s = y ++ c :: t → x.count c = y.count c → x = y
  | [], [], _, _, _, _ => rfl
  | [], d :: y, _, _, h, hc => by
    obtain ⟨rfl, -⟩ := cons.inj h
    simp at hc
  | d :: x, [], _, _, h, hc => by
    obtain ⟨rfl, -⟩ := cons.inj h
    simp at hc
  | d :: x, e :: y, s, t, h, hc => by
    obtain ⟨rfl, ht⟩ := cons.inj h
    rw [count_cons, count_cons, Nat.add_right_cancel_iff] at hc
    rw [eq_of_append_cons ht hc]

theorem exists_of_isPrefixOf (hne : old ≠ []) (h : old.isPrefixOf (c :: cs)) :
    c :: cs = old ++ cs.drop (old.length - 1) := by
  obtain ⟨rest, hr⟩ := isPrefixOf_iff_prefix.mp h
  obtain ⟨d, old, rfl⟩ := exists_cons_of_ne_nil hne
  rw [← hr, ← (cons.inj hr).2, length_cons, Nat.add_sub_cancel]
  exact congrArg (d :: old ++ ·) drop_left.symm

theorem modEq_replaceAll {f : Text → Nat} (hf : ∀ a b, f (a ++ b) = f a + f b) (hne : old ≠ [])
    (h : f new ≡ f old [MOD m]) (s : Text) : f (s.replaceAll old new) ≡ f s [MOD m] := by
  have hgo : ∀ (n : Nat) (s : Text), f (replaceGo old new n s) ≡ f (s.drop n) [MOD m] := fun n s => by
    fun_induction replaceGo old new n s with
    | case1 n => rw [drop_nil]
    | case2 n c cs ih => rwa [drop_succ_cons]
    | case3 c cs hp ih =>
      rw [drop_zero, exists_of_isPrefixOf hne hp, hf, hf]
      exact h.add ih
    | case4 c cs hp ih =>
      rw [drop_zero] at ih ⊢
      rw [← singleton_append, ← singleton_append (l := cs), hf, hf]
      exact Nat.ModEq.rfl.add ih
  exact hgo 0 s

theorem modEq_replaceEach {f : Text → Nat} (hf : ∀ a b, f (a ++ b) = f a + f b) :
    ∀ {rules : List (Text × Text)}, (∀ rule ∈ rules, rule.1 ≠ [] ∧ f rule.2 ≡ f rule.1 [MOD m]) → ∀ s : Text,
      f (s.replaceEach rules) ≡ f s [MOD m]
  | [], _, _ => rfl
  | rule :: rules, h, s => by
    obtain ⟨⟨hne, hru⟩, hr⟩ := forall_mem_cons.mp h
    rw [replaceEach, foldl_cons]
    exact (modEq_replaceEach hf hr _).trans (modEq_replaceAll hf hne hru s)

variable {p : Char → Bool}

theorem countP_drop_le (h : old.isPrefixOf (c :: cs)) :
    old.countP p + (cs.drop (old.length - 1)).countP p ≤ (c :: cs).countP p := by
  cases old with
  | nil =>
    rw [countP_nil, Nat.zero_add]
    exact ((drop_sublist _ cs).cons c).countP_le
  | cons d old => rw [exists_of_isPrefixOf (cons_ne_nil d old) h, countP_append]

theorem countP_replaceGo_le (hr : new.countP p ≤ old.countP p) (n : Nat) (s : Text) :
    (replaceGo old new n s).countP p ≤ (s.drop n).countP p := by
  fun_induction replaceGo old new n s with
  | case1 n => rw [drop_nil]
  | case2 n c cs ih => rwa [drop_succ_cons]
  | case3 c cs hp ih =>
    rw [drop_zero, countP_append]
    exact Nat.le_trans (Nat.add_le_add hr ih) (countP_drop_le hp)
  | case4 c cs hp ih =>
    rw [drop_zero] at ih ⊢
    rw [countP_cons, countP_cons]
    exact Nat.add_le_add_right ih _

theorem countP_replaceAll_lt (hr : new.countP p < old.countP p) : ∀ {s : Text},
    s.has old → (s.replaceAll old new).countP p < s.countP p
  | [], h => by
    rw [List.isEmpty_iff.mp h] at hr
    exact absurd hr (Nat.not_lt_zero _)
  | c :: cs, h => by
    rw [has, Bool.or_eq_true] at h
    rw [replaceAll, replaceGo]
    split
    next hp =>
      rw [countP_append]
      have hre := countP_replaceGo_le (Nat.le_of_lt hr) (old.length - 1) cs
      exact Nat.lt_of_lt_of_le (Nat.add_lt_add_of_lt_of_le hr hre) (countP_drop_le hp)
    next hp =>
      rw [countP_cons, countP_cons]
      exact Nat.add_lt_add_right (countP_replaceAll_lt hr (h.resolve_left hp)) _

theorem countP_replaceEach_le : ∀ {rules : List (Text × Text)},
    (∀ rule ∈ rules, rule.2.countP p ≤ rule.1.countP p) → ∀ s : Text, (s.replaceEach rules).countP p ≤ s.countP p
  | [], _, _ => Nat.le_refl _
  | rule :: rules, h, s => by
    obtain ⟨hru, hr⟩ := forall_mem_cons.mp h
    exact Nat.le_trans (countP_replaceEach_le hr _) (countP_replaceGo_le hru 0 s)

theorem countP_replaceEach_lt : ∀ {rules : List (Text × Text)}, (∀ rule ∈ rules, rule.2.countP p < rule.1.countP p) →
    ∀ {s : Text}, (rules.any fun rule => s.has rule.1) → (s.replaceEach rules).countP p < s.countP p
  | rule :: rules, h, s, ha => by
    obtain ⟨hru, hr⟩ := forall_mem_cons.mp h
    cases hs : s.has rule.1 with
    | true =>
      exact Nat.lt_of_le_of_lt (countP_replaceEach_le (fun rule hm => Nat.le_of_lt (hr rule hm)) _)
        (countP_replaceAll_lt hru hs)
    | false =>
      rw [any_cons, hs, Bool.false_or] at ha
      rw [replaceEach, foldl_cons, replaceAll_of_not_has hs]
      exact countP_replaceEach_lt hr ha

end Text

end QtMigration
