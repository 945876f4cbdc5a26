import QtMigration.Api.FromUtf8
import QtMigration.Proofs.Failure
import QtMigration.Proofs.Line.Paren
import QtMigration.Proofs.Text.Border
import QtMigration.Proofs.Token.Columns

/-!
# Proofs/Api/FromUtf8 — unwrapping conversions ends

**Every round takes eleven characters away, and there are at most as many rounds as eleven goes into
the length**; where the parenthesis stands right behind the name, the round takes away the name, the
parenthesis and the one that closes it (`unwrapping_ends`).
-/

namespace QtMigration

open List Text

/-! ## The call that a search finds -/

/-- **A call among the tokens of a text**: the first `word`, the first parenthesis that opens behind it, and the one
that closes this. -/
structure FoundCall (s word : Text) (front : List Token) (w : Token) (mid : List Token) (o : Token)
    (inner : List Token) (c : Token) (back : List Token) : Prop where
  tokens : (scan s).tokens = front ++ w :: (mid ++ o :: (inner ++ c :: back))
  word_text : w.text = word
  first : ∀ t ∈ front, t.text ≠ word
  between : ∀ t ∈ mid, t.text ≠ ['(']
  open_text : o.text = ['(']
  balanced : Balanced inner
  close_text : c.text = [')']

section Search

variable {s word : Text} {opening closing : Nat} {front mid inner back : List Token} {w o c : Token}

theorem exists_first {ts : List Token} {text : Text} (h : ∃ t ∈ ts, t.text = text) :
    ∃ front t back, ts = front ++ t :: back ∧ t.text = text ∧ ∀ u ∈ front, u.text ≠ text := by
  have hs : (ts.find? fun t => t.text == text).isSome := find?_isSome.mpr (by simpa using h)
  obtain ⟨t, ht⟩ := Option.isSome_iff_exists.mp hs
  obtain ⟨hte, front, back, rfl, hf⟩ := find?_eq_some_iff_append.mp ht
  exact ⟨front, t, back, rfl, by simpa using hte, by simpa using hf⟩

theorem exists_foundCall (hne : word ≠ []) (hwo : word.all isWord)
    (h : s.closingParen word = .ok (opening, closing)) (hlt : opening < s.length) :
    ∃ front w mid o inner c back, FoundCall s word front w mid o inner c back ∧
      opening = brokenLength front + o.start.col ∧
      closing = brokenLength (front ++ w :: (mid ++ o :: inner)) + c.start.col := by
  -- without a pair the answer is the length
  have hn : closingParenGo word ⟨word.isEmpty, 0, 0, 0⟩ (scan s).tokens ≠ none := by
    intro hn
    simp only [closingParen, hn] at h
    split at h
    · cases h
    · cases h
      exact Nat.lt_irrefl _ hlt
  have hb : BreaksApart (scan s).tokens := fun t ht hk => ((scan_placed s).breaks t ht hk).2
  by_cases hw : ∃ t ∈ (scan s).tokens, t.text = word
  case neg =>
    refine absurd ?_ hn
    rw [isEmpty_eq_false_iff.mpr hne, ← append_nil (scan s).tokens,
      closingParenGo_before fun t ht hte => hw ⟨t, ht, hte⟩]
    rfl
  obtain ⟨front, w, rest, hto, hw, hf⟩ := exists_first hw
  rw [hto] at hb hn
  by_cases hp : ∃ t ∈ rest, t.text = ['(']
  case neg =>
    exact absurd (closingParenGo_none hne hwo hb hw hf fun t ht hte => hp ⟨t, ht, hte⟩) hn
  obtain ⟨mid, o, after, rfl, ho, hm⟩ := exists_first hp
  rcases staysOpen_or_closes after 0 with hs | ⟨inner, c, back, rfl, hc, hs, hse⟩
  · exact absurd (closingParenGo_unclosed hne hwo hb hw hf rfl hm ho hs) hn
  have hi : Balanced inner := balanced_iff.mpr ⟨hs, by omega⟩
  rw [closingParen, hto, closingParenGo_pair hne hwo hb hw hf rfl hm ho rfl hi hc] at h
  cases h
  exact ⟨front, w, mid, o, inner, c, back, ⟨hto, hw, hf, hm, ho, hi, hc⟩, rfl, rfl⟩

namespace FoundCall

variable (h : FoundCall s word front w mid o inner c back) (hrow : s.OneRow)

include h hrow

theorem brokenLength_eq_zero : brokenLength front = 0 ∧ brokenLength (front ++ w :: (mid ++ o :: inner)) = 0 :=
  ⟨(stands_of_oneRow hrow front (w :: mid) _ (by simpa using h.tokens) (by simp [h.open_text])
      (by simp [h.open_text])).1,
    (stands_of_oneRow hrow _ [] back (by simpa using h.tokens) (by simp [h.close_text])
      (by simp [h.close_text])).1⟩

theorem getElem?_open : s[o.start.col]? = some '(' :=
  getElem?_of_oneRow hrow (by simp [h.tokens]) h.open_text (by decide)

theorem getElem?_close : s[c.start.col]? = some ')' :=
  getElem?_of_oneRow hrow (by simp [h.tokens]) h.close_text (by decide)

theorem word_at (hne : word ≠ []) (hw : word.all isWord) : word <+: s.drop w.start.col := by
  have hn : '\n' ∉ word := fun hm => absurd (all_eq_true.mp hw _ hm) (by decide)
  have hat := (stands_of_oneRow hrow [] front _ h.tokens (by rwa [h.word_text])
    (by rwa [h.word_text])).2
  rwa [h.word_text] at hat

theorem columns (hne : word ≠ []) (hw : word.all isWord) :
    w.start.col + word.length ≤ o.start.col ∧ o.start.col < c.start.col ∧
      (s[w.start.col + word.length]? = some '(' → mid = [] ∧ o.start.col = w.start.col + word.length) := by
  have ho : o.text ≠ [] := by simp [h.open_text]
  have hc : c.text ≠ [] := by simp [h.close_text]
  obtain ⟨st, finish, hf, hr⟩ := exists_scanRow_behind hrow h.tokens (by rwa [h.word_text])
    (by rwa [h.word_text])
  rw [h.word_text] at hr
  -- the row behind the word, without what ends the scan
  obtain ⟨back', hs, -⟩ := @exists_of_append_empty (mid ++ o :: inner) back c _ _ hf hc
    (hr.symm.trans (by simp))
  rw [append_assoc, cons_append] at hs
  obtain ⟨hle, st', hi⟩ := scanRow_behind 1 s ho 0 st _ _ rfl hs
  obtain ⟨hlt, -⟩ := scanRow_behind 1 s hc 0 st' _ _ rfl hi.symm
  rw [h.open_text, length_singleton] at hlt
  refine ⟨hle, hlt, fun hn => ?_⟩
  obtain ⟨rest, hr⟩ := head?_eq_some_iff.mp ((head?_drop ..).trans hn)
  obtain ⟨p, ts, hop, hp, hcol⟩ := scanRow_open 1 s st (w.start.col + word.length) rest
  rw [hr, hop] at hs
  cases mid with
  | nil =>
    obtain ⟨rfl, -⟩ := cons.inj hs
    exact ⟨rfl, hcol⟩
  | cons t mid =>
    obtain ⟨rfl, -⟩ := cons.inj hs
    exact absurd hp (h.between p mem_cons_self)

end FoundCall

end Search

/-! ## One round -/

/-- **The call is what is gone**: the name, the parenthesis right behind it and the one that closes this. -/
def DropsCall (line : Text) (w o c : Token) (out : Text) : Prop :=
  ∃ before inside behind, line = before ++ (conversionName ++ '(' :: (inside ++ ')' :: behind)) ∧
    w.start.col = before.length ∧ o.start.col = before.length + 9 ∧ c.start.col = before.length + 10 + inside.length ∧
    out = before ++ (inside ++ behind)

section Round

variable {line s t : Text} {opening closing : Nat}

theorem Text.OneRow.sublist (h : t.OneRow) (hs : s <+ t) : s.OneRow := by
  have hl : s.dropLast <+ t.dropLast := by
    rw [← reverse_sublist, ← tail_reverse, ← tail_reverse]
    exact hs.reverse.tail
  exact fun hm => h (hl.subset hm)

theorem unwrapAt_append (before name inside behind : Text) (hn : name.length = 9) :
    unwrapAt (before ++ (name ++ '(' :: (inside ++ ')' :: behind))) (before.length + 9)
      (before.length + 10 + inside.length) = before ++ (inside ++ behind) := by
  have hf : before ++ (name ++ '(' :: (inside ++ ')' :: behind)) =
      (before ++ (name ++ ['(']) ++ inside) ++ ([')'] ++ behind) := by simp
  have ht : takeTo (before ++ (name ++ '(' :: (inside ++ ')' :: behind))) ((before.length + 9 : Nat) - 9) =
      before := by
    rw [takeTo, if_neg (by omega), show (((before.length + 9 : Nat) : Int) - 9).toNat = before.length by omega,
      take_left]
  rw [unwrapAt, ht, hf, slice, take_left' (by simp [hn]; omega), drop_left' (by simp [hn]), drop_append,
    drop_eq_nil_of_le (by simp [hn]; omega)]
  simp [hn, show before.length + 10 + inside.length + 1 - (before.length + (9 + (inside.length + 1))) = 1 by omega]

theorem exists_cut_at (hn : 9 ≤ opening) (hlt : opening < closing) (ho : (line)[opening]? = some '(')
    (hc : (line)[closing]? = some ')') : ∃ before name inside behind,
      line = before ++ (name ++ '(' :: (inside ++ ')' :: behind)) ∧ name.length = 9 ∧ opening = before.length + 9 ∧
      closing = before.length + 10 + inside.length := by
  obtain ⟨front, rest, rfl, rfl⟩ := exists_append_of_getElem? ho
  rw [getElem?_append_right (Nat.le_of_lt hlt), show closing - front.length = closing - front.length - 1 + 1 by omega,
    getElem?_cons_succ] at hc
  obtain ⟨inside, behind, rfl, hi⟩ := exists_append_of_getElem? hc
  refine ⟨front.take (front.length - 9), front.drop (front.length - 9), inside, behind, ?_, ?_, ?_, ?_⟩
  · rw [← append_assoc, take_append_drop]
  all_goals simp only [length_take, length_drop]; omega

theorem conversionName_word : conversionName ≠ [] ∧ conversionName.all isWord := by decide

theorem round_of_oneRow (hrow : line.OneRow) (h : line.closingParen conversionName = .ok (opening, closing))
    (hlt : opening < line.length) : 9 ≤ opening ∧ opening < closing ∧
      (unwrapAt line opening closing).length + 11 = line.length ∧ (unwrapAt line opening closing).OneRow ∧
      ∃ front w mid o inner c back, FoundCall line conversionName front w mid o inner c back ∧
        ((line)[w.start.col + 9]? = some '(' → mid = [] ∧ DropsCall line w o c (unwrapAt line opening closing)) := by
  obtain ⟨hne, hw⟩ := conversionName_word
  obtain ⟨front, w, mid, o, inner, c, back, hf, hop, hcl⟩ := exists_foundCall hne hw h hlt
  obtain ⟨hfr, ha⟩ := hf.brokenLength_eq_zero hrow
  obtain ⟨hwo, hoc, hnext⟩ := hf.columns hrow hne hw
  rw [hfr, Nat.zero_add] at hop
  rw [ha, Nat.zero_add] at hcl
  subst hop hcl
  have hni : 9 ≤ o.start.col := Nat.le_trans (Nat.le_add_left _ _) hwo
  obtain ⟨before, name, inside, behind, hl, hn, ho, hc⟩ :=
    exists_cut_at hni hoc (hf.getElem?_open hrow) (hf.getElem?_close hrow)
  have hout : unwrapAt line o.start.col c.start.col = before ++ (inside ++ behind) := by
    rw [ho, hc, hl, unwrapAt_append before name inside behind hn]
  refine ⟨hni, hoc, ?_, ?_, front, w, mid, o, inner, c, back, hf, fun hp => ?_⟩
  · rw [hout, hl]
    simp only [length_append, length_cons, hn]
    omega
  · rw [hout]
    refine hrow.sublist ?_
    rw [hl]
    have hi := (Sublist.refl inside).append (sublist_cons_self ')' behind)
    exact (Sublist.refl before).append (hi.trans ((sublist_cons_self '(' _).trans (sublist_append_right name _)))
  · obtain ⟨hm, hcol⟩ := hnext hp
    rw [ho, show conversionName.length = 9 from rfl, Nat.add_right_cancel_iff] at hcol
    have hat := hf.word_at hrow hne hw
    rw [← hcol, hl, drop_left, prefix_iff_eq_take, show conversionName.length = 9 from rfl, take_left' hn] at hat
    exact ⟨hm, before, inside, behind, by rw [hat, hl], hcol.symm, ho, hc, hout⟩

end Round

/-! ## The loop -/

/-- **So many rounds lead from a line to another.** -/
inductive UnwrapRounds : Nat → Text → Text → Prop
  | none (line : Text) : UnwrapRounds 0 line line
  | more {n opening closing : Nat} {line out : Text} : line.closingParen conversionName = .ok (opening, closing) →
      opening < line.length → UnwrapRounds n (unwrapAt line opening closing) out → UnwrapRounds (n + 1) line out

/-- **The loop ends at this line**: nothing is left to unwrap, or the line cannot be read. -/
def EndsAt (out : Text) (result : Except Failure Text) : Prop :=
  ((∃ opening closing, out.closingParen conversionName = .ok (opening, closing) ∧ out.length ≤ opening) ∧
    result = .ok out) ∨
  ∃ f, out.closingParen conversionName = .error (.tokens f) ∧ result = .error (.tokens f)

section Loop

variable {line out : Text} {n : Nat}

theorem UnwrapRounds.length_add (h : UnwrapRounds n line out) (hrow : line.OneRow) : out.length + 11 * n = line.length := by
  induction h with
  | none => rfl
  | more hf hlt _ ih =>
    obtain ⟨-, -, hl, hrow', -⟩ := round_of_oneRow hrow hf hlt
    have hr := ih hrow'
    omega

theorem exists_of_closingParen_error {s word : Text} {e : Failure} (h : s.closingParen word = .error e) :
    ∃ f, e = .tokens f := by
  simp only [closingParen] at h
  split at h
  · cases h
  split at h <;> cases h
  exact ⟨_, rfl⟩

theorem exists_unwrapRounds (hrow : line.OneRow) :
    ∃ n out, UnwrapRounds n line out ∧ ∀ limit, n < limit → EndsAt out (unwrapGo limit line) := by
  induction hle : line.length using Nat.strong_induction_on generalizing line with
  | _ length ih =>
    have hgo (limit : Nat) (h : 0 < limit) : ∃ limit', limit = limit' + 1 := ⟨limit - 1, by omega⟩
    cases hf : line.closingParen conversionName with
    | error e =>
      obtain ⟨f, rfl⟩ := exists_of_closingParen_error hf
      refine ⟨0, line, .none line, fun limit hl => .inr ⟨f, hf, ?_⟩⟩
      obtain ⟨limit, rfl⟩ := hgo limit hl
      rw [unwrapGo, hf]
      rfl
    | ok pair =>
      obtain ⟨opening, closing⟩ := pair
      by_cases hlt : opening < line.length
      · obtain ⟨-, -, hs, hrow', -⟩ := round_of_oneRow hrow hf hlt
        obtain ⟨n, out, hr, he⟩ := ih _ (by omega) hrow' rfl
        refine ⟨n + 1, out, .more hf hlt hr, fun limit hl => ?_⟩
        obtain ⟨limit, rfl⟩ := hgo limit (by omega)
        rw [unwrapGo, hf]
        have hre := he limit (by omega)
        simpa [bind, Except.bind, Nat.not_le.mpr hlt] using hre
      · refine ⟨0, line, .none line, fun limit hl => .inl ⟨⟨opening, closing, hf, by omega⟩, ?_⟩⟩
        obtain ⟨limit, rfl⟩ := hgo limit hl
        rw [unwrapGo, hf]
        simp [bind, Except.bind, Nat.not_lt.mp hlt, pure, Except.pure]

theorem oneRow_conversionRules (hrow : line.OneRow) : (line.replaceEach conversionRules).OneRow ∧
    (line.replaceEach conversionRules).length ≤ line.length := by
  have hn {s : Text} (h : '\n' ∉ s) : '\n' ∉ s.replaceEach conversionRules := by
    have hc : Nat.ModEq 0 (count '\n' (s.replaceEach conversionRules)) (count '\n' s) :=
      modEq_replaceEach (f := fun s => count '\n' s) (fun _ _ => count_append) (by decide) s
    rw [Nat.modEq_zero_iff, count_eq_zero.mpr h] at hc
    exact count_eq_zero.mp hc
  constructor
  · by_cases hm : '\n' ∈ line
    · obtain ⟨s, rfl⟩ := getLast?_eq_some_iff.mp (hrow.getLast?_eq hm)
      rw [OneRow, dropLast_concat] at hrow
      have hcut : replaceEach (s ++ '\n' :: []) conversionRules = _ := replaceEach_append_cons (by decide) s []
      rw [hcut, OneRow, show replaceEach [] conversionRules = [] from rfl, dropLast_concat]
      exact hn hrow
    · exact fun h => hn hm (dropLast_sublist _ |>.subset h)
  · have hle : (line.replaceEach conversionRules).countP (fun _ => true) ≤ line.countP fun _ => true :=
      countP_replaceEach_le (by decide) line
    simpa using hle

end Loop

/-- **Unwrapping ends on one row.** -/
theorem unwrapping_ends {line : Text} (hrow : '\n' ∉ line.dropLast) :
    (∀ opening closing, line.closingParen conversionName = .ok (opening, closing) → opening < line.length →
      9 ≤ opening ∧ opening < closing ∧ (unwrapAt line opening closing).length + 11 = line.length ∧
      '\n' ∉ (unwrapAt line opening closing).dropLast ∧
      ∃ front w mid o inner c back, FoundCall line conversionName front w mid o inner c back ∧
        ((line)[w.start.col + 9]? = some '(' → mid = [] ∧ DropsCall line w o c (unwrapAt line opening closing))) ∧
    (∃ n out, UnwrapRounds n line out ∧ n ≤ line.length / 11 ∧ ∀ limit, n < limit → EndsAt out (unwrapGo limit line)) ∧
    ∃ n out, UnwrapRounds n (line.replaceEach conversionRules) out ∧ n ≤ line.length / 11 ∧ EndsAt out (unwrapLine line) := by
  have hcount {s : Text} (hs : s.OneRow) {n : Nat} {out : Text} (h : UnwrapRounds n s out) : n ≤ s.length / 11 := by
    have hlength := h.length_add hs
    omega
  obtain ⟨hrow', hle⟩ := oneRow_conversionRules hrow
  obtain ⟨n, out, hrounds, hends⟩ := exists_unwrapRounds hrow
  obtain ⟨m, out', hrounds', hends'⟩ := exists_unwrapRounds hrow'
  have hm := hcount hrow' hrounds'
  refine ⟨fun _ _ => round_of_oneRow hrow, ⟨n, out, hrounds, hcount hrow hrounds, hends⟩, m, out', hrounds', by omega,
    hends' _ ?_⟩
  rw [unwrapLimit]
  omega

/-- A call in a call. -/
theorem unwrapping_ends_nested : '\n' ∉ dropLast ("x = _fromUtf8(f(_fromUtf8(y)))\n" : Text) ∧
    ∃ n out, UnwrapRounds n ("x = _fromUtf8(f(_fromUtf8(y)))\n" : Text) out ∧ n ≤ 2 ∧
      ∀ limit, n < limit → EndsAt out (unwrapGo limit "x = _fromUtf8(f(_fromUtf8(y)))\n") :=
  ⟨by decide, (@unwrapping_ends "x = _fromUtf8(f(_fromUtf8(y)))\n" (by decide)).2.1⟩

end QtMigration
