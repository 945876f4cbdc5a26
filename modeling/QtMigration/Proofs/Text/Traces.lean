import QtMigration.Proofs.Text.Rows
import QtMigration.Proofs.Text.Split
import QtMigration.Proofs.Text.Trim
import QtMigration.Text.Between

/-!
# Proofs/Text/Traces — where the words of a rewritten text come from

A rewritten text is put together from parts of the old one, with fixed texts between them.
-/

namespace QtMigration

open List

namespace Text

/-! ## Parts of a text -/

section Parts

variable {s sep : Text}

theorem splitGo_parts (sep : Text) : ∀ (n : Nat) (s : Text),
    (splitGo sep n s).1 <+: s.drop n ∧ ∀ piece ∈ (splitGo sep n s).2, piece <:+: s
  | n, [] => by cases n <;> simp [splitGo]
  | n + 1, c :: cs => by
    obtain ⟨hf, ho⟩ := splitGo_parts sep n cs
    exact ⟨hf, fun piece hp => (ho piece hp).trans (suffix_cons c cs).isInfix⟩
  | 0, c :: cs => by
    have hcs : cs <:+: c :: cs := (suffix_cons c cs).isInfix
    rw [splitGo]
    split
    · obtain ⟨hf, ho⟩ := splitGo_parts sep (sep.length - 1) cs
      refine ⟨ nil_prefix, forall_mem_cons.mpr ⟨?_, fun piece hp => ?_⟩⟩
      · exact (hf.isInfix.trans (drop_suffix _ cs).isInfix).trans hcs
      · exact (ho piece hp).trans hcs
    · obtain ⟨hf, ho⟩ := splitGo_parts sep 0 cs
      exact ⟨cons_prefix_cons.mpr ⟨rfl, hf⟩, fun piece hp => (ho piece hp).trans hcs⟩

theorem firstPiece_isPrefix (s sep : Text) : s.firstPiece sep <+: s := (splitGo_parts sep 0 s).1

theorem infix_of_mem_splitOn {piece : Text} (h : piece ∈ s.splitOn sep) : piece <:+: s := by
  obtain ⟨hf, ho⟩ := splitGo_parts sep 0 s
  rcases mem_cons.mp h with rfl | h
  · exact hf.isInfix
  · exact ho piece h

theorem sep_append_infix {first second : Text} {rest : List Text} (hs : sep ≠ [])
    (h : s.splitOn sep = first :: second :: rest) : sep ++ second <:+: s := by
  rw [← flatten_splitOn hs h]
  exact ⟨first, (rest.map (sep ++ ·)).flatten, by simp⟩

theorem trimRightOf_isPrefix (s set : Text) : s.trimRightOf set <+: s := by
  rw [trimRightOf, trimRightWhile, ← reverse_suffix, reverse_reverse]
  exact dropWhile_suffix _

theorem dropEnd_isPrefix (s : Text) (n : Nat) : s.dropEnd n <+: s := take_prefix _ s

theorem afterLast_suffix (s : Text) (c : Char) : s.afterLast c <:+ s := by
  rw [afterLast, ← reverse_prefix, reverse_reverse]
  exact takeWhile_prefix _

theorem untilOnRow_isPrefix {tail : Text → Bool} : ∀ {s t : Text}, untilOnRow tail s = some t → t <+: s
  | [], t, h => by
    rw [untilOnRow] at h
    split at h
    · obtain rfl := Option.some.inj h
      exact nil_prefix
    · cases h
  | c :: cs, t, h => by
    rw [untilOnRow] at h
    split at h
    · obtain rfl := Option.some.inj h
      exact nil_prefix
    split at h
    · cases h
    · obtain ⟨t', ht', rfl⟩ := Option.map_eq_some_iff.mp h
      exact cons_prefix_cons.mpr ⟨rfl, untilOnRow_isPrefix ht'⟩

theorem between?_isInfix {head : Text} {tail : Text → Bool} : ∀ {s t : Text}, between? head tail s = some t → t <:+: s
  | [], _, h => by cases h
  | c :: cs, t, h => by
    rw [between?] at h
    split at h
    next inner hi =>
      obtain rfl := Option.some.inj h
      split at hi
      · exact (untilOnRow_isPrefix hi).isInfix.trans (drop_suffix _ _).isInfix
      · cases hi
    · exact (between?_isInfix h).trans (suffix_cons c cs).isInfix

end Parts

/-! ## Texts that do not overlap -/

def agree : Text → Text → Bool
  | [], _ => true
  | _ :: _, [] => true
  | c :: cs, d :: ds => c == d && agree cs ds

theorem agree_of_isPrefix : ∀ {s t : Text}, s <+: t ∨ t <+: s → agree s t
  | [], _, _ => by rw [agree]
  | _ :: _, [], _ => by rw [agree]
  | c :: cs, d :: ds, h => by
    rw [cons_prefix_cons, cons_prefix_cons] at h
    rw [agree, Bool.and_eq_true, beq_iff_eq]
    exact ⟨h.elim (·.1) (·.1.symm), agree_of_isPrefix (h.imp (·.2) (·.2))⟩

def endsAgainst (t : Text) : Text → Bool
  | [] => true
  | c :: cs => !agree (c :: cs) t && endsAgainst t cs

theorem not_isPrefix_of_endsAgainst {t u : Text} (hu : u ≠ []) : ∀ {s : Text}, endsAgainst t s →
    u <:+ s → ¬ (u <+: t ∨ t <+: u)
  | [], _, hs, _ => hu (suffix_nil.mp hs)
  | c :: cs, h, hs, hl => by
    rw [endsAgainst, Bool.and_eq_true, Bool.not_eq_true'] at h
    rcases suffix_cons_iff.mp hs with rfl | hs
    · rw [agree_of_isPrefix hl] at h
      cases h.1
    · exact not_isPrefix_of_endsAgainst hu h.2 hs hl

/-- **The two texts do not overlap, wherever they meet**: neither contains the other, and no end of one
is a beginning of the other. -/
def Apart (v word : Text) : Prop := endsAgainst v word = true ∧ endsAgainst word v = true

instance (v word : Text) : Decidable (Apart v word) :=
  inferInstanceAs (Decidable (endsAgainst v word = true ∧ endsAgainst word v = true))

theorem apart_singleton {v : Text} {c : Char} (hv : v ≠ []) (hc : c ∉ v) : Apart v [c] := by
  have he : ∀ {u : Text}, c ∉ u → endsAgainst [c] u := by
    intro u hu
    induction u with
    | nil => rfl
    | cons d ds ih =>
      rw [mem_cons, not_or] at hu
      simp [endsAgainst, agree, Ne.symm hu.1, ih hu.2]
  obtain ⟨d, ds, rfl⟩ := exists_cons_of_ne_nil hv
  rw [mem_cons, not_or] at hc
  refine ⟨?_, he (by rwa [mem_cons, not_or])⟩
  simp [endsAgainst, agree, hc.1]

namespace Apart

variable {v word : Text} (h : Apart v word)

include h

theorem infix_behind {u rest : Text} (hu : u <:+ v) (hw : word <:+: u ++ rest) : word <:+: rest := by
  rcases infix_append_cases hw with hin | hin | ⟨l, r, rfl, hl, -, hs, -⟩
  · obtain ⟨front, tail, hv⟩ := hin.trans hu.isInfix
    by_cases hne : word ++ tail = []
    · rw [(append_eq_nil_iff.mp hne).1]
      exact nil_infix
    · have he : word ++ tail <:+ v := ⟨front, by rw [← hv, append_assoc]⟩
      exact absurd (.inr (prefix_append word tail)) (not_isPrefix_of_endsAgainst hne h.2 he)
  · exact hin
  · exact absurd (.inl (prefix_append l r)) (not_isPrefix_of_endsAgainst hl h.2 (hs.trans hu))

theorem infix_cases {front rest : Text} (hw : word <:+: front ++ v ++ rest) :
    word <:+: front ∨ word <:+: rest := by
  rw [append_assoc] at hw
  rcases infix_append_cases hw with hin | hin | ⟨l, r, rfl, -, hr, -, hl⟩
  · exact .inl hin
  · exact .inr (h.infix_behind (suffix_refl v) hin)
  · exact absurd ( prefix_or_prefix_of_prefix hl (prefix_append v rest))
      (not_isPrefix_of_endsAgainst hr h.1 (suffix_append l r))

end Apart

/-! ## Tracing words -/

/-- **What `t` has, `s` has**, if it does not overlap with the fixed texts. -/
def Traces (fixed : List Text) (s t : Text) : Prop :=
  ∀ word : Text, (∀ v ∈ fixed, Apart v word) → t.has word = true → s.has word = true

section Traces

variable {fixed : List Text} {r s t u v : Text}

theorem Traces.of_isInfix (h : t <:+: s) : Traces fixed s t := fun _ _ hw =>
  has_iff_infix.mpr ((Text.has_iff_infix.mp hw).trans h)

theorem Traces.refl (s : Text) : Traces fixed s s := .of_isInfix (infix_refl s)

theorem Traces.trans (h : Traces fixed r s) (h' : Traces fixed s t) : Traces fixed r t :=
  fun word hw ht => h word hw (h' word hw ht)

theorem Traces.lacks (h : Traces fixed s t) {word : Text} (hw : ∀ v ∈ fixed, Apart v word)
    (hs : s.has word = false) : t.has word = false :=
  Bool.eq_false_iff.mpr fun ht => by rw [h word hw ht] at hs; cases hs

theorem Traces.front (hv : v ∈ fixed) (hu : u <:+ v) (h : Traces fixed s t) :
    Traces fixed s (u ++ t) := fun word hw ht =>
  h word hw (Text.has_iff_infix.mpr ((hw v hv).infix_behind hu (Text.has_iff_infix.mp ht)))

theorem Traces.append (h : Traces fixed s t) (hv : v ∈ fixed) (h' : Traces fixed s u) :
    Traces fixed s (t ++ v ++ u) := fun word hw ht => by
  rcases (hw v hv).infix_cases (Text.has_iff_infix.mp ht) with hin | hin
  · exact h word hw (Text.has_iff_infix.mpr hin)
  · exact h' word hw (Text.has_iff_infix.mpr hin)

theorem Traces.nil (s : Text) : Traces fixed s [] := .of_isInfix nil_infix

theorem Traces.concat (h : Traces fixed s t) (hv : v ∈ fixed) : Traces fixed s (t ++ v) := by
  simpa using h.append hv (.nil s)

theorem Traces.indent {blank : Text} (hb : ∀ c ∈ blank, [c] ∈ fixed) (h : Traces fixed s t) :
    Traces fixed s (blank ++ t) := by
  induction blank with
  | nil => exact h
  | cons c blank ih =>
    obtain ⟨hc, hb⟩ := forall_mem_cons.mp hb
    exact (ih hb).front (u := [c]) hc (suffix_refl _)

theorem Traces.join {sep : Text} (hs : sep ∈ fixed) : ∀ {texts : List Text},
    (∀ t ∈ texts, Traces fixed s t) → Traces fixed s (Text.join sep texts)
  | [], _ => .nil s
  | [t], h => h t mem_cons_self
  | t :: t' :: rest, h => by
    rw [Text.join]
    exact (h t mem_cons_self).append hs (Traces.join hs fun u hu => h u (mem_cons_of_mem _ hu))

/-! ## Replacing -/

def Joins (fixed : List Text) (s new : Text) : Prop :=
  ∀ t u : Text, Traces fixed s t → Traces fixed s u → Traces fixed s (t ++ new ++ u)

theorem joins_fixed (hv : v ∈ fixed) : Joins fixed s v := fun _ _ ht hu => ht.append hv hu

theorem joins_between {w : Text} (hv : v ∈ fixed) (ht : Traces fixed s t) (hw : w ∈ fixed) :
    Joins fixed s (v ++ t ++ w) := fun a b ha hb => by
  have h := (ha.append hv ht).append hw hb
  simpa only [append_assoc] using h

/-- The text begins as `u` does, and goes on behind a text that joins. -/
def Begins (fixed : List Text) (s u t : Text) : Prop :=
  t <+: u ∨ ∃ front new rest, front <+: u ∧ Joins fixed s new ∧ Traces fixed s rest ∧
    t = front ++ new ++ rest

theorem Begins.traces (h : Begins fixed s u t) (hu : u <:+: s) : Traces fixed s t := by
  rcases h with hl | ⟨front, new, rest, hf, hn, hr, rfl⟩
  · exact .of_isInfix (hl.isInfix.trans hu)
  · exact hn front rest (.of_isInfix (hf.isInfix.trans hu)) hr

theorem Begins.append_left (kept : Text) (h : Begins fixed s u t) : Begins fixed s (kept ++ u) (kept ++ t) := by
  rcases h with hl | ⟨front, new, rest, hf, hn, hr, rfl⟩
  · exact .inl ((prefix_append_right_inj kept).mpr hl)
  · refine .inr ⟨kept ++ front, new, rest, (prefix_append_right_inj kept).mpr hf, hn, hr, ?_⟩
    simp only [append_assoc]

theorem begins_replaceGo (before old behind : Text) {new : Text} (hn : Joins fixed s new) :
    ∀ (n : Nat) (cs : Text), cs <:+ s → Begins fixed s (cs.drop n)
      (replaceGo (before ++ old ++ behind) (before ++ new ++ behind) n cs)
  | n, [], _ => by cases n <;> exact .inl (prefix_refl _)
  | n + 1, c :: cs, hs => begins_replaceGo before old behind hn n cs ((suffix_cons c cs).trans hs)
  | 0, c :: cs, hs => by
    have hcs : cs <:+ s := (suffix_cons c cs).trans hs
    rw [replaceGo]
    split
    next hm =>
      obtain ⟨rest, hr⟩ := isPrefixOf_iff_prefix.mp hm
      have hf : before <+: c :: cs := hr ▸ ⟨old ++ behind ++ rest, by simp⟩
      have ih := begins_replaceGo before old behind hn ((before ++ old ++ behind).length - 1) cs hcs
      refine .inr ⟨before, new, behind ++ replaceGo (before ++ old ++ behind) (before ++ new ++ behind)
        ((before ++ old ++ behind).length - 1) cs, hf, hn, ?_, by simp only [append_assoc]⟩
      cases ho : before ++ old ++ behind with
      | nil =>
        -- an empty text is replaced at every place, and nothing is kept
        rw [ho] at ih
        rw [(append_eq_nil_iff.mp ho).2] at ih ⊢
        exact ih.traces hcs.isInfix
      | cons d ds =>
        have hd : cs.drop ((before ++ old ++ behind).length - 1) = rest := by
          rw [ho, cons_append, cons.injEq] at hr
          rw [ho, ← hr.2, length_cons, Nat.add_sub_cancel, drop_left]
        have hb : behind ++ rest <:+: s := by
          refine List.IsInfix.trans ?_ hs.isInfix
          rw [← hr]
          exact ⟨before ++ old, [], by simp⟩
        rw [hd, ho] at ih
        exact (ih.append_left behind).traces hb
    next => exact (begins_replaceGo before old behind hn 0 cs hcs).append_left [c]

theorem traces_replaceAll_between (before old behind : Text) {new : Text} (hn : Joins fixed s new) :
    Traces fixed s (s.replaceAll (before ++ old ++ behind) (before ++ new ++ behind)) :=
  (begins_replaceGo before old behind hn 0 s (suffix_refl s)).traces (infix_refl s)

theorem traces_replaceAll (old : Text) {new : Text} (hn : Joins fixed s new) :
    Traces fixed s (s.replaceAll old new) := by
  simpa using traces_replaceAll_between [] old [] hn

theorem traces_replaceEach : ∀ {rules : List (Text × Text)} {s : Text},
    (∀ rule ∈ rules, rule.2 ∈ fixed) → Traces fixed s (s.replaceEach rules)
  | [], s, _ => .refl s
  | rule :: rules, s, h => by
    obtain ⟨hn, hr⟩ := forall_mem_cons.mp h
    exact (traces_replaceAll rule.1 (joins_fixed hn)).trans (traces_replaceEach hr)

end Traces

end Text

end QtMigration
