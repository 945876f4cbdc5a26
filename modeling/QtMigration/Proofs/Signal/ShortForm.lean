import QtMigration.Proofs.Signal.Declared
import QtMigration.Proofs.Signal.Overloads

/-!
# Proofs/Signal/ShortForm — a call that does not name the object of the slot

**So the two forms are rewritten to the same text exactly if the goal is a signal** (`short_form_iff`);
the text of a slot is the long one's without `self.`.
-/

namespace QtMigration

open List

variable {calls : Run (Text × Connection)} {line : Text}

/-- Making or undoing a connection. -/
inductive Linking
  | connect
  | disconnect
  deriving DecidableEq, Repr

namespace Linking

def verb : Linking → Text
  | connect => "connect"
  | disconnect => "disconnect"

def read (target : Target) : Linking → List Text → Run (Option Connection)
  | connect => Connection.ofConnect? target
  | disconnect => Connection.ofDisconnect? target

/-- **The line that the pass writes**; nothing for a line without such a call. -/
def written (k : Linking) (target : Target) (line : Text) : Run (Option Text) := do
  return (← updateCall k.verb (k.read target) line).map Prod.fst

/-- **The pass from a line on**, with the lines before it as they are for connections. -/
def passFrom (target : Target) (before : List Text) (line : Text) (behind : List Text) : Linking → Run Declaring
  | connect => visitLines (connectAt target) (line :: behind).length before.length ⟨before ++ line :: behind, false⟩
  | disconnect => do return ⟨← updateDisconnections target (before ++ line :: behind), false⟩

end Linking

def enclosed (keyword content : Text) : Text := keyword ++ '(' :: (content ++ [')'])

def inQuotes (content : Text) : Text := '"' :: (content ++ ['"'])

/-- **A call in the short form**, with a signal or a slot in double quotes as its goal. -/
structure ShortCall (k : Linking) where
  frame : CallFrame k.verb
  sender : Text
  /-- What stands in the parentheses behind the keyword of the signal. -/
  signal : Text
  keyword : Text
  /-- The name of the goal, with its types. -/
  content : Text
  isArgument_sender : IsArgument sender
  isArgument_signal : IsArgument (enclosed "SIGNAL" signal)
  known : keyword ∈ declarationKeywords
  quoted : '"' ∉ content
  noLambda : content.has "lambda " = false
  single : ∀ s ∈ [sender, enclosed "SIGNAL" signal, enclosed keyword (inQuotes content)],
    s.has ("." ++ k.verb ++ "(") = false

namespace ShortCall

variable {k : Linking} (c : ShortCall k) (target : Target)

def declared : Text := enclosed "SIGNAL" c.signal

def goal : Text := enclosed c.keyword (inQuotes c.content)

def short : Text := c.frame.line [c.sender, c.declared, c.goal]

/-- **The line in the long form**, with the object that makes the call. -/
def long : Text := c.frame.line [c.sender, c.declared, "self", c.goal]

def relays : Bool := c.goal.has "SIGNAL("

def connection (receiver : Text) : Run Connection := do
  connectionTo target c.sender (← signature target c.declared) ⟨receiver, c.goal, []⟩

/-! ## Reading the two forms -/

theorem has_enclosed (keyword content : Text) : (enclosed keyword content).has (keyword ++ ['(']) :=
  Text.has_iff_infix.mpr ⟨[], content ++ [')'], by simp [enclosed]⟩

theorem has_declared : c.declared.has "SIGNAL(" := by
  have hk : (("SIGNAL(" : String).toList : Text) = ("SIGNAL" : Text) ++ ['('] := by decide
  rw [hk]
  exact has_enclosed _ _

theorem isDeclared_goal : isDeclared c.goal := by
  have hk : ∀ k ∈ declarationKeywords, k ++ ['('] ∈ [("SIGNAL(" : Text), "SLOT("] := by decide
  have hh : ∀ key : Text, c.keyword ++ ['('] = key → c.goal.has key := by
    rintro _ rfl
    exact has_enclosed _ _
  have hkey := hk _ c.known
  rw [mem_cons, mem_singleton] at hkey
  rw [isDeclared, Bool.or_eq_true]
  exact hkey.imp (hh _) (hh _)

theorem read_short : k.read target [c.sender, c.declared, c.goal] =
    some <$> c.connection target (if c.relays then "self" else "") := by
  cases k with
  | connect => exact @ofConnect?_declared target _ _ _ c.has_declared c.isDeclared_goal [] (Nat.zero_le 1)
  | disconnect =>
    simp only [Linking.read, Connection.ofDisconnect?, c.has_declared, c.isDeclared_goal, connection, relays,
      map_eq_pure_bind, bind_assoc]
    rfl

theorem read_long : k.read target [c.sender, c.declared, "self", c.goal] = some <$> c.connection target "self" := by
  cases k with
  | connect =>
    have hs : isDeclared "self" = false := by decide
    exact @ofConnect?_object target _ _ _ c.has_declared hs _ c.isDeclared_goal [] (Nat.zero_le 1)
  | disconnect =>
    simp only [Linking.read, Connection.ofDisconnect?, c.has_declared, c.isDeclared_goal, connection,
      map_eq_pure_bind, bind_assoc]
    rfl

theorem forall_mem_args :
    (∀ arg ∈ [c.sender, c.declared, c.goal], IsArgument arg ∧ arg.has ("." ++ k.verb ++ "(") = false) ∧
    ∀ arg ∈ [c.sender, c.declared, "self", c.goal], IsArgument arg ∧ arg.has ("." ++ k.verb ++ "(") = false := by
  have hse : IsArgument "self" ∧ Text.has "self" ("." ++ k.verb ++ "(") = false :=
    ⟨⟨.of_isNested (by decide) (by decide) (by decide), by decide, by decide, by decide⟩, by cases k <;> decide⟩
  obtain ⟨hs, hsingle⟩ := forall_mem_cons.mp c.single
  obtain ⟨hsi, hg⟩ := forall_mem_cons.mp hsingle
  have hs : IsArgument c.sender ∧ _ := ⟨c.isArgument_sender, hs⟩
  have hsi : IsArgument c.declared ∧ _ := ⟨c.isArgument_signal, hsi⟩
  have hq : IsArgument c.goal := by
    have hf : c.goal = c.keyword ++ '(' :: '"' :: (c.content ++ ['"', ')']) := by simp [goal, enclosed, inQuotes]
    rw [hf]
    exact isArgument_quoted c.known c.quoted c.noLambda
  have hg : IsArgument c.goal ∧ _ := ⟨hq, forall_mem_singleton.mp hg⟩
  simp only [forall_mem_cons, not_mem_nil, false_imp_iff, implies_true, and_true]
  exact ⟨⟨hs, hsi, hg⟩, hs, hsi, hse, hg⟩

theorem updateCall_short : updateCall k.verb (k.read target) c.short =
    (fun conn => some (conn.render c.frame.indent k.verb, conn)) <$>
      c.connection target (if c.relays then "self" else "") :=
  c.frame.updateCall_line c.forall_mem_args.1 ⟨c.declared, by simp, c.has_declared⟩ (c.read_short target)

theorem updateCall_long : updateCall k.verb (k.read target) c.long =
    (fun conn => some (conn.render c.frame.indent k.verb, conn)) <$> c.connection target "self" :=
  c.frame.updateCall_line c.forall_mem_args.2 ⟨c.declared, by simp, c.has_declared⟩ (c.read_long target)

/-! ## Writing the two forms -/

theorem exists_signature {s inner : Text} (h : parenContent? s = some inner) :
    ∃ parts, (signature target s).outcome = .ok parts := by
  have hp : ∀ content, ∃ parts, signatureParts target content = .ok parts := by
    intro content
    rw [signatureParts]
    split
    · exact ⟨_, rfl⟩
    · exact ⟨_, rfl⟩
    next name types others hs =>
      have ho : '(' ∉ types := fun hm => by
        refine @Text.splitOn_lacks content "(" types (by decide) (by rw [hs]; simp) ?_
        obtain ⟨front, rest, rfl⟩ := append_of_mem hm
        exact ⟨front, rest, by simp⟩
      have hc : '(' ∉ cleanTypes target (types.replaceAll ")" "") := by
        have hr : ∀ rule ∈ typeRules target, '(' ∉ rule.2 := by cases target <;> decide
        exact Text.notMem_replaceEach hr (Text.notMem_replaceGo (by decide) 0 ho)
      obtain ⟨args, ha⟩ := exists_splitArguments hc
      exact ⟨name.trimLeft :: args, by rw [ha]; rfl⟩
  rw [signature]
  split
  · rw [h]
    dsimp only
    split
    · exact hp _
    · exact ⟨_, rfl⟩
  · exact ⟨_, rfl⟩

theorem parenContent?_enclosed {keyword : Text} (hk : '(' ∉ keyword) (content : Text) :
    parenContent? (enclosed keyword content) = some content := by
  rw [parenContent?, enclosed, show (("(" : String).toList : Text) = ['('] by decide, Text.cut?_append hk]
  exact Text.beforeLast?_append (by decide)

theorem exists_connection : ∃ conn : Connection, ∀ receiver,
    (c.connection target receiver).outcome = .ok { conn with receiver := receiver } := by
  have hd : parenContent? c.declared = some c.signal := parenContent?_enclosed (by decide) _
  have hg : parenContent? c.goal = some (inQuotes c.content) :=
    parenContent?_enclosed ((show ∀ k ∈ declarationKeywords, '(' ∉ k by decide) _ c.known) _
  obtain ⟨parts, hp⟩ := exists_signature target hd
  obtain ⟨slot, hs⟩ := exists_signature target hg
  refine ⟨⟨c.sender, signatureName parts, signatureTypes parts, [], signatureName slot, signatureTypes slot,
    relayOf c.goal, []⟩, fun receiver => ?_⟩
  rw [connection]
  refine Run.bind_eq_ok.mpr ⟨parts, hp, ?_⟩
  rw [connectionTo]
  exact Run.bind_eq_ok.mpr ⟨slot, hs, rfl⟩

theorem exists_render (conn : Connection) (indent verb : Text) : ∃ front rest : Text, ∀ receiver,
    ({ conn with receiver := receiver } : Connection).render indent verb =
      front ++ Connection.wrapped "" receiver "." ++ rest :=
  ⟨indent ++ conn.sender ++ "." ++ conn.signal ++ Connection.wrapped "[" conn.signalTypes "]" ++ "." ++ verb ++ "(",
    conn.slot ++ (if conn.relayed.isEmpty then [] else Connection.wrapped "[" conn.slotTypes "]") ++
      Connection.wrapped ", " conn.options "" ++ ")\n", fun receiver => by simp only [Connection.render, append_assoc]⟩

theorem exists_written : ∃ front rest : Text,
    (k.written target c.short).outcome = .ok (some (front ++ (if c.relays then "self." else [] : Text) ++ rest)) ∧
      (k.written target c.long).outcome = .ok (some (front ++ "self." ++ rest)) := by
  obtain ⟨conn, hc⟩ := c.exists_connection target
  obtain ⟨front, rest, hr⟩ := exists_render conn c.frame.indent k.verb
  have hre : Connection.wrapped "" (if c.relays then "self" else "") "." =
      (if c.relays then "self." else [] : Text) := by
    cases c.relays <;> decide
  have hs : Connection.wrapped "" "self" "." = "self." := by decide
  refine ⟨front, rest, ?_, ?_⟩
  · rw [Linking.written, updateCall_short, ← hre, ← hr]
    exact Run.bind_eq_ok.mpr ⟨_, Run.bind_eq_ok.mpr ⟨_, hc _, rfl⟩, rfl⟩
  · rw [Linking.written, updateCall_long, ← hs, ← hr]
    exact Run.bind_eq_ok.mpr ⟨_, Run.bind_eq_ok.mpr ⟨_, hc _, rfl⟩, rfl⟩

/-! ## The passes -/

theorem connectAt_eq
    (h : updateCall "connect" (Connection.ofConnect? target) line = some <$> calls) (before behind : List Text) :
    connectAt target before.length (before ++ line :: behind) = (do
      let call ← calls
      if call.2.relayed.isEmpty then return ⟨before ++ call.1 :: behind, 0⟩
      else declareSignal target (before ++ call.1 :: behind) before.length call.2.relayed) := by
  have hl : (before ++ line :: behind)[before.length]? = some line := by simp
  have hs : ∀ line', (before ++ line :: behind).set before.length line' = before ++ line' :: behind := by simp
  rw [connectAt, hl]
  dsimp only
  rw [h, map_eq_pure_bind, bind_assoc]
  refine bind_congr fun call => ?_
  rw [pure_bind]
  dsimp only
  rw [hs]

theorem disconnectLine_eq (h : updateCall "disconnect" (Connection.ofDisconnect? target) line = some <$> calls) :
    disconnectLine target line = Prod.fst <$> calls := by
  rw [disconnectLine, h, map_eq_pure_bind, map_eq_pure_bind, bind_assoc]
  refine bind_congr fun call => ?_
  rw [pure_bind]

theorem updateDisconnections_congr {line line' : Text} (h : disconnectLine target line = disconnectLine target line')
    (behind before : List Text) : updateDisconnections target (before ++ line :: behind) =
      updateDisconnections target (before ++ line' :: behind) := by
  induction before with
  | nil => rw [nil_append, nil_append, updateDisconnections, updateDisconnections, h]
  | cons l before ih => rw [cons_append, cons_append, updateDisconnections, updateDisconnections, ih]

theorem passFrom_congr {line' : Text} (h : updateCall k.verb (k.read target) line = some <$> calls)
    (h' : updateCall k.verb (k.read target) line' = some <$> calls) (before behind : List Text) :
    k.passFrom target before line behind = k.passFrom target before line' behind := by
  cases k with
  | connect =>
    rw [Linking.passFrom, Linking.passFrom, length_cons, length_cons, visitLines, visitLines]
    dsimp only
    rw [connectAt_eq target h, connectAt_eq target h']
  | disconnect =>
    have hs : disconnectLine target line = disconnectLine target line' :=
      (disconnectLine_eq target h).trans (disconnectLine_eq target h').symm
    rw [Linking.passFrom, Linking.passFrom, updateDisconnections_congr target hs]

end ShortCall

/-- **When the short form stands for the long one.** -/
theorem short_form_iff (target : Target) {k : Linking} (c : ShortCall k) : (∃ front rest : Text,
      (k.written target c.short).outcome = .ok (some (front ++ (if c.relays then "self." else [] : Text) ++ rest)) ∧
        (k.written target c.long).outcome = .ok (some (front ++ "self." ++ rest))) ∧
    ((k.written target c.short).outcome = (k.written target c.long).outcome ↔ c.relays = true) ∧
    (c.relays = true → ∀ before behind,
      k.passFrom target before c.short behind = k.passFrom target before c.long behind) := by
  obtain ⟨front, rest, hshort, hlong⟩ := c.exists_written target
  refine ⟨⟨front, rest, hshort, hlong⟩, ?_, fun hrelays before behind => ?_⟩
  · rw [hshort, hlong]
    constructor
    · intro h
      have hlength := congrArg List.length (Option.some.inj (Except.ok.inj h))
      cases hrelays : c.relays with
      | true => rfl
      | false =>
        rw [hrelays] at hlength
        simp at hlength
        omega
    · intro hrelays
      rw [hrelays, if_pos rfl]
  · have hcalls : ∀ receiver, (fun conn => some (Connection.render conn c.frame.indent k.verb, conn)) <$>
        c.connection target receiver =
          some <$> (fun conn => (Connection.render conn c.frame.indent k.verb, conn)) <$> c.connection target receiver :=
      fun receiver => by rw [← LawfulFunctor.comp_map]; rfl
    have hsame := c.updateCall_short target
    rw [hrelays, if_pos rfl, hcalls] at hsame
    exact ShortCall.passFrom_congr target hsame ((c.updateCall_long target).trans (hcalls _)) before behind

theorem paren_notMem_nil : ')' ∉ ([] : Text) := not_mem_nil

/-- A signal of another object is connected to a goal of the object that makes the call. -/
def ownCall (k : Linking) {keyword : Text} (h : keyword ∈ declarationKeywords) : ShortCall k where
  frame := ⟨[], "self", [], by cases k <;> decide, by simp, by decide, by decide, by cases k <;> decide,
    by cases k <;> decide, paren_notMem_nil⟩
  sender := "a"
  signal := inQuotes "n()"
  keyword := keyword
  content := "m()"
  isArgument_sender := ⟨.of_isNested (by decide) (by decide) (by decide), by decide, by decide, by decide⟩
  isArgument_signal := by
    have hform : enclosed "SIGNAL" (inQuotes "n()") = "SIGNAL" ++ '(' :: '"' :: ("n()" ++ ['"', ')']) := by decide
    rw [hform]
    exact isArgument_quoted (by decide) (by decide) (by decide)
  known := h
  quoted := by decide
  noLambda := by decide
  single := by
    rw [declarationKeywords, mem_cons, mem_singleton] at h
    rcases h with rfl | rfl <;> cases k <;> decide

theorem short_form_iff_ownSignal : ∃ h : ("SIGNAL" : Text) ∈ declarationKeywords,
    (ownCall .connect h).short = "self.connect(a, SIGNAL(\"n()\"), SIGNAL(\"m()\"))\n" ∧
      (ownCall .connect h).relays = true ∧
        Linking.connect.passFrom .new ["class A:\n"] (ownCall .connect h).short [] =
          Linking.connect.passFrom .new ["class A:\n"] (ownCall .connect h).long [] :=
  ⟨by decide, by decide, by decide, (short_form_iff .new (ownCall .connect _)).2.2 (by decide) _ _⟩

/-- **The short form of a slot loses the object that makes the call.** -/
theorem short_slot_unbound : ∃ h : ("SLOT" : Text) ∈ declarationKeywords,
    (ownCall .connect h).short = "self.connect(a, SIGNAL(\"n()\"), SLOT(\"m()\"))\n" ∧
      (updateConnections .new [(ownCall .connect h).short]).outcome = .ok ⟨["a.n.connect(m)\n"], false⟩ ∧
      (updateConnections .new [(ownCall .connect h).long]).outcome = .ok ⟨["a.n.connect(self.m)\n"], false⟩ ∧
      (updateDisconnections .new [(ownCall .disconnect h).short]).outcome = .ok ["a.n.disconnect(m)\n"] ∧
      (updateDisconnections .new [(ownCall .disconnect h).long]).outcome = .ok ["a.n.disconnect(self.m)\n"] := by
  refine ⟨by decide, ?_, ?_, ?_, ?_, ?_⟩ <;> decide +kernel

end QtMigration
