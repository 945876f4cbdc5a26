import QtMigration.Conversion
import QtMigration.Proofs.Frame.Keeps
import QtMigration.Proofs.Text.Search
import QtMigration.Proofs.Token.Scan

/-!
# Proofs/Frame/Api — the passes for parts of the library keep what they do not rewrite

For every pass that is more than one function applied to each line: it keeps the lines on which its line
function does nothing.
-/

namespace QtMigration

open List

variable {p p' : Progress} {cfg : Settings} {item line : Text}

variable {lines out : List Text}

variable {keep : Text → Bool}

/-! ## Conversions from UTF-8 -/

theorem closingParenGo_of_absent {word : Text} : ∀ (st : Text.ParenSearch) (ts : List Token),
    st.begun = false → st.depth = 0 → (∀ t ∈ ts, t.text ≠ word) → Text.closingParenGo word st ts = none
  | _, [], _, _, _ => rfl
  | st, t :: ts, hb, hd, ha => by
    obtain ⟨ht, hts⟩ := forall_mem_cons.mp ha
    rw [Text.closingParenGo]
    simp only [hb, hd, beq_eq_false_iff_ne.mpr ht, Bool.and_false, Bool.false_and,
      Bool.false_eq_true, if_false, bne_self_eq_false]
    split
    · exact closingParenGo_of_absent _ ts rfl rfl hts
    · exact closingParenGo_of_absent st ts hb hd hts

theorem unwrapGo_of_not_has {line' : Text} (h : line.has conversionName = false) {limit : Nat}
    (hgo : unwrapGo limit line = .ok line') : line' = line := by
  cases limit with
  | zero => cases hgo
  | succ limit =>
    have ha : ∀ t ∈ (scan line).tokens, t.text ≠ conversionName := fun t ht heq =>
      Text.has_eq_false_iff.mp h (heq ▸ (pieceOf_of_mem_scan ht).text_inside)
    rw [unwrapGo, Text.closingParen, closingParenGo_of_absent _ _ rfl rfl ha] at hgo
    obtain ⟨⟨opening, closing⟩, hp, hgo⟩ := bind_eq_ok.mp hgo
    dsimp only at hp
    split at hp
    · cases hp
    · cases hp
      dsimp only at hgo
      rw [if_pos (Nat.le_refl _)] at hgo
      exact (Except.ok.inj hgo).symm

/-- The line is left, or is a line of code from which conversions are taken. -/
def Unwraps (line : Text) (here : List Text) : Prop :=
  here = [line] ∨ line.isCode = true ∧ ∃ line', unwrapLine line = .ok line' ∧ here = [line']

theorem removeConversionsGo_expands : ∀ (before lines : List Text) {out : List Text},
    (∀ line ∈ lines, line.isCode → isConversionDefinition line = false) →
      removeConversionsGo 0 before lines = .ok out → ∃ rest, out = before.reverse ++ rest ∧ Expands Unwraps lines rest
  | before, [], out, _, h => ⟨[], by rw [append_nil]; exact (Except.ok.inj h).symm, .nil⟩
  | before, line :: lines, out, hd, h => by
    obtain ⟨hli, hl⟩ := forall_mem_cons.mp hd
    have ih : ∀ {line' : Text}, Unwraps line [line'] → removeConversionsGo 0 (line' :: before) lines = .ok out →
        ∃ rest, out = before.reverse ++ rest ∧ Expands Unwraps (line :: lines) rest := fun {line'} hs hgo => by
      obtain ⟨rest, rfl, hr⟩ := removeConversionsGo_expands _ lines hl hgo
      exact ⟨line' :: rest, by rw [reverse_cons, append_assoc, singleton_append], .single hs hr⟩
    rw [removeConversionsGo] at h
    split at h
    · exact ih (.inl rfl) h
    next hc =>
      have hc : line.isCode := by simpa using hc
      rw [hli hc, Bool.false_and, if_neg (by decide), if_neg (by decide)] at h
      obtain ⟨line', hu, h⟩ := bind_eq_ok.mp h
      exact ih (.inr ⟨hc, line', hu, rfl⟩) h

theorem removeConversions_expands (hd : ∀ line ∈ lines, line.isCode → isConversionDefinition line = false)
    (h : removeConversions lines = .ok out) : Expands Unwraps lines out := by
  obtain ⟨rest, rfl, hr⟩ := removeConversionsGo_expands [] lines hd h
  exact hr

/-! ## Imports -/

theorem updateImports_expands : ∀ (p : Progress) (lines : List Text) {out : List Text} {p' : Progress},
    updateImports cfg p lines = .ok (out, p') →
      Expands (fun line here => ∃ p p', importLine cfg p line = .ok (here, p')) lines out
  | _, [], out, _, h => (Prod.mk.inj (Except.ok.inj h)).1 ▸ .nil
  | p, line :: lines, out, p', h => by
    rw [updateImports] at h
    obtain ⟨⟨here, q⟩, hh, h⟩ := bind_eq_ok.mp h
    obtain ⟨⟨rest, q'⟩, hr, h⟩ := bind_eq_ok.mp h
    cases h
    exact .cons ⟨p, q, hh⟩ (updateImports_expands q lines hr)

theorem updateImports_keeps (hke : ∀ p line, keep line →
    importLine cfg p line = .ok ([line], p)) (h : updateImports cfg p lines = .ok (out, p')) : Keeps keep lines out := by
  refine (updateImports_expands p lines h).keeps ?_
  rintro line here ⟨q, q', hh⟩ hk
  rw [hke q line hk] at hh
  cases hh
  exact mem_cons_self

theorem importWidgets_sublist : ∀ (lines : List Text) {out : List Text},
    importWidgets lines = .ok out → lines.Sublist out
  | [], _, _ => nil_sublist _
  | line :: lines, out, h => by
    rw [importWidgets] at h
    split at h
    · obtain ⟨indent, -, rfl⟩ := map_eq_ok.mp h
      exact (sublist_cons_self _ _).cons_cons line
    · obtain ⟨rest, hr, rfl⟩ := map_eq_ok.mp h
      exact (importWidgets_sublist lines hr).cons_cons line

theorem ensureWidgets_sublist (h : ensureWidgets p lines = .ok (out, p')) : lines.Sublist out := by
  rw [ensureWidgets] at h
  split at h
  · cases h
    exact List.Sublist.refl _
  · obtain ⟨lines', hl', heq⟩ := map_eq_ok.mp h
    obtain ⟨rfl, -⟩ := Prod.mk.inj heq
    exact importWidgets_sublist lines hl'

/-! ## Notes and definitions -/

theorem noteLines_keeps {note : Text} {concerns : Text → Bool}
    (h : noteLines note concerns lines = .ok out) : Keeps keep lines out := by
  refine (expandLines_expands h).keeps fun line here hh _ => ?_
  rw [noteLine] at hh
  split at hh
  · obtain ⟨indent, -, rfl⟩ := map_eq_ok.mp hh
    exact mem_cons_of_mem _ mem_cons_self
  · obtain rfl := Except.ok.inj hh
    exact mem_cons_self

theorem insertDefinitions_sublist {block : Text → Except Failure (List Text)} :
    ∀ (lines : List Text) {out : List Text}, insertDefinitions block lines = .ok out → lines.Sublist out
  | [], _, _ => nil_sublist _
  | line :: lines, out, h => by
    rw [insertDefinitions] at h
    split at h
    · obtain ⟨rest, hr, rfl⟩ := map_eq_ok.mp h
      exact (insertDefinitions_sublist lines hr).cons_cons line
    · obtain ⟨here, -, rfl⟩ := map_eq_ok.mp h
      exact sublist_append_right _ _

theorem updateChars_keeps (hk : ∀ line, keep line → charLine line = line)
    (h : updateChars lines = .ok out) : Keeps keep lines out := by
  rw [updateChars] at h
  split at h
  · exact (map_keeps hk lines).trans_sublist (insertDefinitions_sublist _ h)
  · obtain rfl := Except.ok.inj h
    exact map_keeps hk lines

theorem updateStrings_keeps (hk : ∀ line, keep line → stringLine line = line)
    (h : updateStrings lines = .ok out) : Keeps keep lines out := by
  rw [updateStrings] at h
  split at h
  · exact (map_keeps hk lines).trans_sublist (insertDefinitions_sublist _ h)
  · obtain rfl := Except.ok.inj h
    exact map_keeps hk lines

/-! ## Wheel events and dates -/

theorem wheelGo_outside (hc : line.isCode) (lines : List Text) :
    wheelGo none (line :: lines) = openHandler? line >>= fun h => (wheelGo h lines).map (line :: ·) := by
  rw [wheelGo, hc]
  rfl

theorem wheelGo_inside (hc : line.isCode) (h : WheelHandler) (lines : List Text) :
    wheelGo (some h) (line :: lines) = line.indent >>= fun indent =>
      if indent.le h.indent then wheelGo none (line :: lines)
      else (wheelGo (some h) lines).map (handlerLine h line :: ·) := by
  rw [wheelGo_outside hc, wheelGo, if_neg (by rw [hc]; decide)]
  cases line.indent with
  | error e => rfl
  | ok indent => cases hle : indent.le h.indent <;> simp [hle, bind, Except.bind, pure, Except.pure]

/-- The line is left, or a line of code is looked through inside a handler. -/
def Handled (line : Text) (here : List Text) : Prop :=
  here = [line] ∨ line.isCode = true ∧ ∃ h, here = [handlerLine h line]

theorem wheelGo_expands : ∀ (h : Option WheelHandler) (lines : List Text) {out : List Text},
    wheelGo h lines = .ok out → Expands Handled lines out
  | _, [], out, hgo => Except.ok.inj hgo ▸ .nil
  | h, line :: lines, out, hgo => by
    have ih : ∀ {h' : Option WheelHandler} {line' : Text}, Handled line [line'] →
        (wheelGo h' lines).map (line' :: ·) = .ok out → Expands Handled (line :: lines) out := fun hl hm => by
      obtain ⟨rest, hr, rfl⟩ := map_eq_ok.mp hm
      exact .cons hl (wheelGo_expands _ lines hr)
    cases hc : line.isCode with
    | false =>
      rw [wheelGo, hc] at hgo
      exact ih (.inl rfl) hgo
    | true =>
      -- a line outside a handler may open one, a line inside is looked through
      have ho : wheelGo none (line :: lines) = .ok out → Expands Handled (line :: lines) out := fun hgo => by
        rw [wheelGo_outside hc] at hgo
        obtain ⟨h', -, hgo⟩ := bind_eq_ok.mp hgo
        exact ih (.inl rfl) hgo
      cases h with
      | none => exact ho hgo
      | some h =>
        rw [wheelGo_inside hc] at hgo
        obtain ⟨indent, -, hgo⟩ := bind_eq_ok.mp hgo
        split at hgo
        · exact ho hgo
        · exact ih (.inr ⟨hc, h, rfl⟩) hgo

theorem dateClasses_expands : ∀ (inside : Bool) (lines : List Text),
    Expands (fun line here => here = [line] ∨ line.has "self.setYMD(" ∧ here = [renameSetDate line]) lines
      (dateClasses inside lines)
  | _, [] => .nil
  | inside, line :: lines => by
    rw [dateClasses]
    split
    · exact .cons (.inl rfl) (dateClasses_expands _ lines)
    split
    next hs => exact .cons (.inr ⟨(Bool.and_eq_true_iff.mp hs).2, rfl⟩) (dateClasses_expands _ lines)
    · exact .cons (.inl rfl) (dateClasses_expands _ lines)

theorem dateNames_expands : ∀ (dates lines : List Text), Expands (fun line here => here = [line] ∨
    (line.isCode ∧ line.has ".setYMD(") ∧ here = [renameSetDate line]) lines (dateNames dates lines)
  | _, [] => .nil
  | dates, line :: lines => by
    rw [dateNames]
    split
    · exact .cons (.inl rfl) (dateNames_expands _ lines)
    next hco =>
      dsimp only
      generalize (if line.has "QDate(" = true then _ else dates : List Text) = dates'
      split
      next hc =>
        exact .cons (.inr ⟨⟨by simpa using hco, (Bool.and_eq_true_iff.mp hc).1⟩, rfl⟩) (dateNames_expands _ lines)
      · exact .cons (.inl rfl) (dateNames_expands _ lines)

theorem updateDates_keeps (hc : ∀ line, keep line → line.has "self.setYMD(" = false)
    (hn : ∀ line, keep line → line.isCode → line.has ".setYMD(" = false) (lines : List Text) :
    Keeps keep lines (updateDates lines) := by
  refine ((dateClasses_expands false lines).keeps ?_).trans ((dateNames_expands [] _).keeps ?_)
  · rintro line _ (rfl | ⟨hs, rfl⟩) hk
    · exact mem_cons_self
    · rw [hc line hk] at hs
      cases hs
  · rintro line _ (rfl | ⟨⟨hco, hca⟩, rfl⟩) hk
    · exact mem_cons_self
    · rw [hn line hk hco] at hca
      cases hca

/-! ## Desktop services and headers -/

theorem placesGo_expands {services : List Text} : ∀ (lines : List Text) {r : List Text × Bool},
    placesGo services lines = .ok r →
      Expands (fun line here => ∃ changed, placeLine services line = .ok (here, changed)) lines r.1
  | [], r, h => Except.ok.inj h ▸ .nil
  | line :: lines, r, h => by
    rw [placesGo] at h
    obtain ⟨⟨here, c⟩, hh, h⟩ := bind_eq_ok.mp h
    obtain ⟨⟨rest, c'⟩, hr, h⟩ := bind_eq_ok.mp h
    obtain rfl := Except.ok.inj h
    exact .cons ⟨c, hh⟩ (placesGo_expands lines hr)

theorem updateDesktopServices_expands (h : (updateDesktopServices p lines).map (·.1) = .ok out) :
    ∃ services, Expands (fun line here => ∃ changed, placeLine services line = .ok (here, changed)) lines out := by
  obtain ⟨⟨out', p'⟩, ho, rfl⟩ := map_eq_ok.mp h
  rw [updateDesktopServices] at ho
  obtain ⟨⟨lines', changed⟩, hp, ho⟩ := bind_eq_ok.mp ho
  cases ho
  exact ⟨_, placesGo_expands lines hp⟩

theorem headersGo_keeps {known : List Text} : ∀ (methods : List (Text × Text)),
    (∀ m ∈ methods, ∀ line line', keep line → headerLine known m.1 m.2 line = .ok line' → line' = line) →
    ∀ (lines : List Text) {out : List Text}, headersGo known methods lines = .ok out → Keeps keep lines out
  | [], _, lines, out, h => by
    obtain rfl := Except.ok.inj h
    exact Keeps.refl _
  | (old, new) :: methods, hk, lines, out, h => by
    obtain ⟨hf, ho⟩ := forall_mem_cons.mp hk
    rw [headersGo] at h
    obtain ⟨lines', hl', h⟩ := bind_eq_ok.mp h
    exact (mapM_keeps hf hl').trans (headersGo_keeps methods ho lines' h)

/-! ## Graphics items -/

def initialisesBase (super item line : Text) : Bool :=
  line.trimLeft.startsWith super || line.has (item ++ ".__init__")

/-- A line of a class body: it is left, or initialises the base class. -/
def BodyExpands (super item line : Text) (here : List Text) : Prop :=
  here = [line] ∨ line.isCode = true ∧ initialisesBase super item line = true ∧ initLines line = .ok here

theorem classBody_expands {super : Text} : ∀ (indent : Text) (lines : List Text) {b : ClassBody},
    classBody super item indent lines = .ok b → Expands (BodyExpands super item) (lines.take b.count) b.lines
  | _, [], b, h => Except.ok.inj h ▸ .nil
  | indent, line :: lines, b, h => by
    have ih : ∀ {indent' : Text}, (classBody super item indent' lines).map (ClassBody.cons line) = .ok b →
        Expands (BodyExpands super item) ((line :: lines).take b.count) b.lines := fun hm => by
      obtain ⟨rest, hr, rfl⟩ := map_eq_ok.mp hm
      exact .cons (.inl rfl) (classBody_expands _ lines hr)
    rw [classBody] at h
    split at h
    · exact ih h
    next hc =>
    split at h
    · obtain ⟨indent', -, h⟩ := bind_eq_ok.mp h
      exact ih h
    split at h
    next hi =>
      obtain ⟨here, hh, rfl⟩ := map_eq_ok.mp h
      have hl : Expands (BodyExpands super item) [line] (here ++ []) :=
        .cons (.inr ⟨by simpa using hc, hi, hh⟩) .nil
      rwa [append_nil] at hl
    · obtain ⟨here, -, h⟩ := bind_eq_ok.mp h
      split at h
      · obtain rfl := Except.ok.inj h
        exact .single (.inl rfl) .nil
      · exact ih h

def passesItem (item line : Text) : Bool := !line.isCode || line.isImport || !line.has item

theorem passesItem_itemName (other : Text) (h : passesItem item line) :
    passesItem (itemName item other) line := by
  rw [itemName]
  split
  · rw [passesItem, Bool.or_eq_true] at h ⊢
    refine h.imp_right fun hl => ?_
    rw [Bool.not_eq_true'] at hl ⊢
    exact Text.has_eq_false_of_subneedle hl (prefix_append _ _).isInfix
  · exact h

/-- A line in the pass for an item: it belongs to a class body or names the item, or it is left. -/
def ItemExpands (item line : Text) (here : List Text) : Prop :=
  (∃ name item, BodyExpands (superCall name) item line here) ∨ passesItem item line = false ∧
    ∃ item', itemLines line (aroundItem line item').1 (aroundItem line item').2 = .ok here

theorem ItemExpands.mono {other : Text} {here : List Text} (h : ItemExpands (itemName item other) line here) :
    ItemExpands item line here :=
  h.imp_right <| And.imp_left fun hp => Bool.eq_false_iff.mpr fun hi =>
    Bool.eq_false_iff.mp hp (passesItem_itemName other hi)

theorem updateItemsGo_expands : ∀ (skip : Nat) (item : Text) (lines : List Text) {out : List Text},
    updateItemsGo skip item lines = .ok out → Expands (ItemExpands item) (lines.drop skip) out
  | _, _, [], out, h => by
    unfold updateItemsGo at h
    rw [drop_nil]
    exact Except.ok.inj h ▸ .nil
  | skip + 1, item, _ :: lines, out, h => updateItemsGo_expands skip item lines h
  | 0, item, line :: lines, out, h => by
    rw [updateItemsGo] at h
    rw [drop_zero]
    split at h
    · obtain ⟨rest, hr, rfl⟩ := map_eq_ok.mp h
      exact .cons (.inl ⟨none, item, .inl rfl⟩) (updateItemsGo_expands 0 item lines hr)
    next hn =>
    split at h
    · obtain ⟨b, hb, h⟩ := bind_eq_ok.mp h
      obtain ⟨rest, hr, rfl⟩ := map_eq_ok.mp h
      -- the body is what the class has gone through, the rest is what it has left
      have hbo : Expands (ItemExpands item) (lines.take b.count) b.lines :=
        (classBody_expands _ lines hb).imp fun _ _ hl => .inl ⟨_, item, hl⟩
      have ha := hbo.append (updateItemsGo_expands b.count item lines hr)
      rw [take_append_drop] at ha
      exact .single (.inl ⟨none, item, .inl rfl⟩) ha
    split at h
    · cases h
    · obtain ⟨here, hh, h⟩ := bind_eq_ok.mp h
      obtain ⟨rest, hr, rfl⟩ := map_eq_ok.mp h
      exact .cons (.inr ⟨Bool.eq_false_iff.mpr hn, _, hh⟩)
        ((updateItemsGo_expands 0 _ lines hr).imp fun _ _ => ItemExpands.mono)

theorem updateItemsGo_keeps {skip : Nat} (hi : ∀ name item line here, keep line →
      line.isCode → initialisesBase (superCall name) item line → initLines line = .ok here → line ∈ here)
    (hitem : ∀ line, keep line → passesItem item line) (h : updateItemsGo skip item lines = .ok out) :
    Keeps keep (lines.drop skip) out := by
  refine (updateItemsGo_expands skip item lines h).keeps ?_
  rintro line here (⟨name, item, rfl | ⟨hc, hb, hh⟩⟩ | ⟨hp, -⟩) hk
  · exact mem_cons_self
  · exact hi name item line here hk hc hb hh
  · rw [hitem line hk] at hp
    cases hp

theorem updateGraphics_keeps (hin : ∀ name item line here, keep line → line.isCode →
    initialisesBase (superCall name) item line → initLines line = .ok here → line ∈ here)
    (hitem : ∀ item ∈ itemClasses, ∀ line, keep line → passesItem item line)
    (h : updateGraphics lines = .ok out) : Keeps keep lines out := by
  suffices hfo : ∀ (items : List Text), (∀ item ∈ items, item ∈ itemClasses) →
      ∀ lines, items.foldlM (fun ls item => updateItems item ls) lines = .ok out →
        Keeps keep lines out from hfo itemClasses (fun _ hi => hi) lines h
  intro items
  induction items with
  | nil =>
    intro _ lines h
    obtain rfl := Except.ok.inj h
    exact Keeps.refl _
  | cons item items ih =>
    intro hm lines h
    obtain ⟨hf, ho⟩ := forall_mem_cons.mp hm
    rw [foldlM_cons] at h
    obtain ⟨lines', hl', h⟩ := bind_eq_ok.mp h
    exact (updateItemsGo_keeps hin (hitem item hf) hl').trans (ih ho lines' h)

end QtMigration
