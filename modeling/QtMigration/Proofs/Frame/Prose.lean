import QtMigration.Proofs.Frame.Pipeline
import QtMigration.Proofs.Text.Trim

/-!
# Proofs/Frame/Prose — comments and strings under the passes

A line that is neither blank nor code is *prose*: a comment, or a line that begins with a string.
-/

namespace QtMigration

open List

variable {lines out : List Text} {pass : Pass} {p : Progress} {cfg : Settings} {line : Text}

def isProse (line : Text) : Bool := !line.isCode && !line.trim.isEmpty

theorem isCode_of_isProse (h : isProse line) : line.isCode = false := by
  rw [isProse, Bool.and_eq_true, Bool.not_eq_true'] at h
  exact h.1

namespace Pass

def leftOut (lines : List Text) : Pass → List Text
  | coreClasses | widgetClasses | printClasses => passedOver "QtGui" 0 lines
  | webClasses => passedOver "QtWebKit" 0 lines
  | _ => []

/-- The pass rewrites and removes lines of code and blank lines only. -/
def guarded : Pass → Bool
  | signalDecorators | slotDecorators | dates | headers | inputDialogs
  | coreClasses | widgetClasses | printClasses | webClasses => false
  | _ => true

theorem soughtAnywhere_of_guarded (h : pass.guarded) : pass.soughtAnywhere = [] := by
  cases pass with
  | signalDecorators | slotDecorators | dates | headers | inputDialogs => cases h
  | _ => rfl

theorem leftOut_of_guarded (h : pass.guarded) (lines : List Text) : pass.leftOut lines = [] := by
  cases pass with
  | coreClasses | widgetClasses | printClasses | webClasses => cases h
  | _ => rfl

end Pass

theorem isProse_eq_head (line : Text) :
    isProse line = line.trim.head?.any fun c => c == '#' || c == '"' || c == '\'' := by
  rw [isProse, Text.trim_isEmpty, Text.isCode_eq_head]
  cases h : line.trimLeft with
  | nil => rw [Text.trim, h]; rfl
  | cons c cs =>
    have ht : line.trim.head? = some c := by
      have hne : line.trim.isEmpty = false := by rw [Text.trim_isEmpty, h]; rfl
      obtain ⟨rest, hr⟩ := Text.trimRight_isPrefix line.trimLeft
      change line.trim ++ rest = line.trimLeft at hr
      rw [h] at hr
      cases hl : line.trim with
      | nil => rw [hl] at hne; cases hne
      | cons d ds =>
        rw [hl] at hr
        exact congrArg some (cons.inj hr).1
    rw [ht]
    simp [bne, Bool.or_assoc]

/-! ## What the passes do with lines that are no code -/

section Keeping

variable {keep : Text → Bool}

theorem codeLacks_of_not_code (h : line.isCode = false) (pieces : List Text) :
    CodeLacks pieces line := fun hc => absurd hc (by rw [h]; decide)

theorem not_prose_of_handlerLength? {n : Nat} (h : handlerLength? lines = some n) :
    ∀ line ∈ lines.take n, isProse line = false := by
  have hfo : ∀ form ∈ handlerForms, ∀ text ∈ form,
      (text.head?.any fun c => c == '#' || c == '"' || c == '\'') = false := by decide
  rw [handlerLength?, Option.map_eq_some_iff] at h
  obtain ⟨form, hf, hn⟩ := h
  have hbl : ∀ line ∈ lines.take form.length, isProse line = false := by
    intro line hl
    have hp : form.isPrefixOf (lines.map Text.trim) := by simpa using find?_some hf
    have heq := prefix_iff_eq_take.1 ( isPrefixOf_iff_prefix.1 hp)
    have hm : line.trim ∈ form := by
      rw [heq, ← map_take]
      exact mem_map_of_mem hl
    rw [isProse_eq_head]
    exact hfo form (mem_of_find?_eq_some hf) _ hm
  split at hn
  next hb =>
    subst hn
    intro line hl
    rw [take_add_one, mem_append] at hl
    rcases hl with hl | hl
    · exact hbl line hl
    · rw [Option.mem_toList.1 hl, Option.any_some] at hb
      rw [isProse, hb, Bool.not_true, Bool.and_false]
  next => exact hn ▸ hbl

theorem removeConversionsGo_keeps_prose (hkeep : ∀ line, keep line → isProse line) :
    ∀ (skip : Nat) (before lines : List Text) {out : List Text}, (∀ line ∈ lines.take skip, isProse line = false) →
      removeConversionsGo skip before lines = .ok out → Keeps keep (before.reverse ++ lines) out
  | skip, before, [], out, _, h => by
    have ho : before.reverse = out := by cases skip <;> exact Except.ok.inj h
    rw [append_nil, ho]
    exact Keeps.refl out
  | skip + 1, before, line :: lines, out, hs, h => by
    rw [take_succ_cons, forall_mem_cons] at hs
    rw [removeConversionsGo] at h
    have hl : keep line = false := Bool.eq_false_iff.2 fun hk => by
      rw [hkeep line hk] at hs
      cases hs.1
    exact ((Keeps.refl _).append ((Keeps.refl lines).skip hl)).trans
      (removeConversionsGo_keeps_prose hkeep skip before lines hs.2 h)
  | 0, before, line :: lines, out, _, h => by
    -- whatever a line of code becomes, the rest goes on behind it
    have ih : ∀ {line' : Text}, (keep line → line' = line) →
        removeConversionsGo 0 (line' :: before) lines = .ok out →
          Keeps keep (before.reverse ++ line :: lines) out := fun hsa hgo => by
      have hr := removeConversionsGo_keeps_prose hkeep 0 _ lines (by simp) hgo
      rw [reverse_cons, append_assoc, singleton_append] at hr
      exact ((Keeps.refl _).append ((Keeps.refl _).cons hsa)).trans hr
    rw [removeConversionsGo] at h
    split at h
    · exact ih (fun _ => rfl) h
    next hc =>
      have hl : keep line = false := Bool.eq_false_iff.2 fun hk =>
        hc (by rw [isCode_of_isProse (hkeep line hk)]; rfl)
      have ha : ∀ {line' : Text}, keep line → line' = line :=
        fun hk => absurd hk (by rw [hl]; decide)
      split at h
      · obtain ⟨indent, -, h⟩ := bind_eq_ok.mp h
        exact ih ha h
      next hb =>
      split at h
      next n hn =>
        -- the line before the definition goes as well
        obtain ⟨hd, hn⟩ : isConversionDefinition line ∧ handlerLength? lines = some n := by
          split at hn
          next hd => exact ⟨hd, hn⟩
          next => cases hn
        rw [hd, Bool.true_and, Bool.not_eq_true', Bool.not_eq_false, inConversionBlock,
          Bool.and_eq_true] at hb
        cases before with
        | nil => cases hb.1
        | cons try_ before =>
          have hf : keep try_ = false := Bool.eq_false_iff.2 fun hk => by
            have hp := hkeep try_ hk
            rw [isProse_eq_head, beq_iff_eq.1 hb.1] at hp
            cases hp
          have hr := removeConversionsGo_keeps_prose hkeep n before lines (not_prose_of_handlerLength? hn) h
          rw [reverse_cons, append_assoc, singleton_append]
          exact ((Keeps.refl _).append (((Keeps.refl lines).skip hl).skip hf)).trans hr
      next =>
        obtain ⟨line', -, h⟩ := bind_eq_ok.mp h
        exact ih ha h

variable (hkeep : ∀ line, keep line = true → line.isCode = false)

include hkeep

theorem retarget_keeps_of_not_code {old new : Text} (hov : ∀ line ∈ passedOver old 0 lines, keep line = false)
    (h : (retarget old new p lines).map (·.1) = .ok out) : Keeps keep lines out := by
  obtain ⟨⟨out', p'⟩, ho, rfl⟩ := map_eq_ok.mp h
  rw [retarget] at ho
  split at ho
  · cases ho
  · refine retargetGo_keeps (fun line p hk => ?_) 0 lines ho hov
    rw [retargetLine, if_pos (by rw [hkeep line hk]; rfl)]

omit hkeep

end Keeping

theorem Pass.run_keeps {keep : Text → Bool} (hp : ∀ line, keep line → isProse line)
    (hl : ∀ line, keep line → line.hasAny pass.soughtAnywhere = false)
    (ho : ∀ line ∈ pass.leftOut lines, keep line = false)
    (h : pass.run cfg p lines = .ok out) : Keeps keep lines out := by
  have hc : ∀ line, keep line → line.isCode = false :=
    fun line hk => isCode_of_isProse (hp line hk)
  have hs : ∀ {f : Text → Text}, (∀ line, keep line → f line = line) →
      (Except.ok (lines.map f) : Except Failure _) = .ok out → Keeps keep lines out :=
    fun hf h => Except.ok.inj h ▸ map_keeps hf lines
  by_cases ha : pass ∈ apiPasses
  · refine run_keeps_of_leaves ha (fun line hk => ?_) h
    refine ⟨hl line hk, codeLacks_of_not_code (hc line hk) _, fun _ _ _ hli => ?_⟩
    rw [hc line hk] at hli
    cases hli
  cases pass with
  | conversions => exact removeConversionsGo_keeps_prose hp 0 [] lines (by simp) h
  | emissions =>
    obtain ⟨st, hst, rfl⟩ := map_eq_ok.mp h
    exact updateEmissions_keeps (fun line hk => by rw [emitsNothing, hc line hk]; rfl) hst
  | connections =>
    obtain ⟨st, hst, rfl⟩ := map_eq_ok.mp h
    exact updateConnections_keeps (fun line hk => by rw [callsNothing, hc line hk]; rfl) hst
  | disconnections =>
    exact updateDisconnections_keeps (fun line hk => by rw [callsNothing, hc line hk]; rfl) lines h
  | signalDecorators =>
    exact hs (fun line hk => signalDecorator_of_lacks _
      (Text.hasAny_eq_false_iff.1 (hl line hk) _ mem_cons_self)) h
  | slotDecorators => exact hs (fun line hk => slotDecorator_of_lacks _ (hl line hk)) h
  | coreClasses | widgetClasses | printClasses | webClasses =>
    exact retarget_keeps_of_not_code hc ho h
  | imports =>
    obtain ⟨⟨out', p'⟩, ho, rfl⟩ := map_eq_ok.mp h
    exact updateImports_keeps (fun q line hk => if_pos (by rw [hc line hk]; rfl)) ho
  | _ => exact absurd (by decide) ha

/-- Lines with prose that an unguarded pass rewrites or leaves out. -/
def Pass.spoiled : Pass → List Text
  | signalDecorators => ["# @pyqtSignal*\n"]
  | slotDecorators => ["# @pyqtSignature\n"]
  | dates => ["class A(QDate):\n", "# self.setYMD(\n"]
  | headers => ["# horizontalHeader().setMovable\n"]
  | inputDialogs => ["# QInputDialog.getInteger(\n"]
  | coreClasses | widgetClasses | printClasses => ["QtGui=QtGui.QSound\n", "# a\n"]
  | webClasses => ["QtWebKit=QtWebKit.QSound\n", "# a\n"]
  | _ => []

/-- The pass does not keep the prose of the lines that are made for it. -/
def Pass.spoils (pass : Pass) : Bool :=
  match pass.run ⟨.new, " "⟩ .initial pass.spoiled with
  | .ok out => !decide (Keeps isProse pass.spoiled out)
  | .error _ => false

theorem Pass.spoils_of_not_guarded (h : pass.guarded = false) : pass.spoils := by
  have ha : ∀ pass ∈ [signalDecorators, slotDecorators, dates, headers, inputDialogs, coreClasses,
      widgetClasses, printClasses, webClasses], pass.spoils := by decide +kernel
  refine ha pass ?_
  revert h
  cases pass <;> decide

theorem Pass.exists_spoiled (h : pass.guarded = false) :
    ∃ out, pass.run ⟨.new, " "⟩ .initial pass.spoiled = .ok out ∧ ¬ Keeps isProse pass.spoiled out := by
  have hs := spoils_of_not_guarded h
  rw [spoils] at hs
  split at hs
  next out ho => exact ⟨out, ho, by simpa using hs⟩
  next => cases hs

/-- **Comments and strings are left alone by the guarded passes, and by no others.** -/
theorem prose_kept_iff_guarded (pass : Pass) : (∀ cfg p lines out, pass.run cfg p lines = .ok out →
        (∀ line ∈ lines, isProse line = true → line.hasAny pass.soughtAnywhere = false) →
        (∀ line ∈ pass.leftOut lines, isProse line = false) → Keeps isProse lines out) ∧
      ((∀ cfg p lines out, pass.run cfg p lines = .ok out → Keeps isProse lines out) ↔
        pass.guarded = true) := by
  have hkeeps : ∀ cfg p lines out, pass.run cfg p lines = .ok out →
      (∀ line ∈ lines, isProse line = true → line.hasAny pass.soughtAnywhere = false) →
      (∀ line ∈ pass.leftOut lines, isProse line = false) → Keeps isProse lines out := by
    intro cfg p lines out h hlacks hout
    -- in these lines, prose is the same as prose that lacks the pieces
    have hprose : lines.filter isProse = lines.filter fun line => isProse line && !line.hasAny pass.soughtAnywhere :=
      List.filter_congr fun line hline => by
        cases hp : isProse line with
        | false => rfl
        | true => rw [hlacks line hline hp]; rfl
    rw [Keeps, hprose]
    refine Pass.run_keeps (fun line hk => ?_) (fun line hk => ?_) (fun line hline => ?_) h
    · exact (Bool.and_eq_true_iff.1 hk).1
    · simpa using (Bool.and_eq_true_iff.1 hk).2
    · rw [hout line hline, Bool.false_and]
  refine ⟨hkeeps, fun hall => ?_, fun hguarded cfg p lines out h => ?_⟩
  · by_contra hnot
    obtain ⟨out, hrun, hspoiled⟩ := Pass.exists_spoiled (Bool.eq_false_iff.2 hnot)
    exact hspoiled (hall _ _ _ _ hrun)
  · refine hkeeps cfg p lines out h (fun _ _ _ => ?_) fun line hline => ?_
    · rw [Pass.soughtAnywhere_of_guarded hguarded]
      rfl
    · rw [Pass.leftOut_of_guarded hguarded] at hline
      cases hline

/-- **A comment is rewritten**: the pass for slot decorators renames a decorator inside it. -/
theorem comment_rewritten : Pass.slotDecorators.run ⟨.new, " "⟩ .initial ["# @pyqtSignature\n"] =
    .ok ["# @pyqtSlot\n"] ∧ ¬ Keeps isProse ["# @pyqtSignature\n"] ["# @pyqtSlot\n"] := by
  constructor <;> decide +kernel

end QtMigration
