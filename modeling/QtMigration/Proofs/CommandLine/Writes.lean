import QtMigration.CommandLine.Reach
import QtMigration.CommandLine.Run
import QtMigration.Proofs.CommandLine.Job

/-!
# Proofs/CommandLine/Writes — the paths that a run writes

A run writes its log, its comparisons, and what lies below the place it converts to (`Options.Writes`).
-/

namespace QtMigration

open List

namespace Text

theorem dropEnd_append {n : Nat} (a : Text) {b : Text} (h : n ≤ b.length) :
    dropEnd (a ++ b) n = a ++ dropEnd b n := by
  rw [dropEnd, dropEnd, length_append, Nat.add_sub_assoc h, take_length_add_append]

theorem length_afterLast_lt {s : Text} {c : Char} (h : c ∈ s) : (s.afterLast c).length < s.length := by
  rw [afterLast, length_reverse]
  refine Nat.lt_of_le_of_ne ?_ fun heq => ?_
  · exact ( takeWhile_prefix _).length_le.trans (Nat.le_of_eq length_reverse)
  · have hw : s.reverse.takeWhile (· != c) = s.reverse :=
      ( takeWhile_prefix _).eq_of_length (by rw [heq, length_reverse])
    have hm : c ∈ s.reverse.takeWhile (· != c) := by
      rw [hw]
      exact mem_reverse.2 h
    simpa using mem_takeWhile_imp hm

end Text

namespace Path

variable {path base name source dest : Text}

theorem length_extension_le (path : Text) : (extension path).length ≤ (baseName path).length := by
  have hd : ((baseName path).dropWhile (· == '.')).length ≤ (baseName path).length :=
    (dropWhile_suffix _).length_le
  rw [extension]
  split
  next h =>
    have := Text.length_afterLast_lt (contains_iff_mem.1 h)
    rw [length_cons]
    omega
  · exact Nat.zero_le _

theorem exists_stem_join (path : Text) (hna : '/' ∉ name) {tail : Text} (ht : '/' ∉ tail)
    (hlo : 2 < tail.length) :
    ∃ other, IsName other ∧ stem (Path.join path name) ++ tail = Path.join path other := by
  have hl : (extension (Path.join path name)).length ≤ name.length := by
    have := length_extension_le (Path.join path name)
    rwa [baseName_join hna] at this
  generalize hn : (extension (Path.join path name)).length = n at hl
  have hsl : '/' ∉ Text.dropEnd name n ++ tail := by
    rw [mem_append, not_or]
    exact ⟨fun hm => hna (mem_of_mem_take hm), ht⟩
  have hsh : ∀ s : Text, s.length ≤ 2 → Text.dropEnd name n ++ tail ≠ s := by
    rintro s hs rfl
    rw [length_append] at hs
    omega
  refine ⟨_, ⟨hsh [] (by decide), hsl, hsh _ (by decide), hsh _ (by decide)⟩, ?_⟩
  rw [stem, hn, join_eq_append hna, Text.dropEnd_append _ hl, append_assoc, join_eq_append hsl]

theorem Below.stem_join (h : Below base path) (hn : '/' ∉ name) {tail : Text} (ht : '/' ∉ tail)
    (hl : 2 < tail.length) : Below base (stem (Path.join path name) ++ tail) := by
  obtain ⟨other, ho, hs⟩ := exists_stem_join path hn ht hl
  rw [hs]
  exact h.join ho

end Path

namespace FileTree

theorem fullPath_congr {t u : FileTree} (h : u.here = t.here) (path : Text) : u.fullPath path = t.fullPath path := by
  rw [fullPath, fullPath, herePath, herePath, h]

theorem locate_of_has {t : FileTree} {path : Text} (h : t.has path) :
    ∃ p n, t.locate true path = .ok (p, some n) := by
  rw [has, stat] at h
  split at h
  next p n hp => exact ⟨p, n, hp⟩
  · cases h
  · cases h

theorem Grows.hasDirectory {t u : FileTree} {path : Text} (h : Grows t u) (hpa : t.has path) :
    u.hasDirectory path = t.hasDirectory path := by
  obtain ⟨p, n, hp⟩ := locate_of_has hpa
  obtain ⟨n', hn', hb⟩ := h.became (node?_of_locate hp)
  rw [FileTree.hasDirectory, FileTree.hasDirectory, stat, stat, hp, h.locate hp, hn']
  cases hb <;> rfl

end FileTree

namespace Options

/-- The places to which a run may convert what its path leads to. -/
def places (o : Options) (t : FileTree) : List Text :=
  let path := t.fullPath o.path
  let dest := (o.output.map t.fullPath).getD path
  if dest == path then
    if t.hasDirectory path then [o.target.directoryFor path]
    else [o.target.fileFor path, o.target.listingDirectory]
  else [dest]

/-- **The paths that a run writes**: the log, the comparisons, and what is below the place it converts to. -/
inductive Writes (o : Options) (t : FileTree) : Text → Prop
  | log (h : o.noLog = false) : Writes o t o.target.logName
  | comparison {dest w : Text} (hdest : dest ∈ o.places t) (hw : w ∈ o.comparisonFiles dest) : Writes o t w
  | below {dest w : Text} (hdest : dest ∈ o.places t) (hw : Path.Below dest w) : Writes o t w
  | copy {dest path w : Text} (hdir : t.hasDirectory (t.fullPath o.path) = true) (hdest : dest ∈ o.places t)
      (hpath : Path.Below (t.fullPath o.path) path)
      (hw : Path.Below (Text.replaceAll path (t.fullPath o.path) dest) w) : Writes o t w

end Options

namespace Job

open Within (Any)

section Steps

variable {W : Text → Prop} {t : FileTree} {logPath : Option Text} {source dest path : Text}

theorem log_within (hl : ∀ p ∈ logPath, W p) (message : Text) : Within W t (log logPath message) Any := by
  cases logPath with
  | none => exact .pure trivial
  | some path => exact .edit fun _ _ h => FileTree.update_steps (hl path rfl) h

theorem play_within (hl : ∀ p ∈ logPath, W p) (hd : W dest) (e : Event) :
    Within W t (play logPath source dest e) Any := by
  cases e with
  | say message => exact (Within.print _).bind fun _ _ => log_within hl message
  | print text => exact .print text
  | save bytes =>
    exact (Within.edit fun _ _ h => FileTree.update_steps hd h).bind fun _ _ =>
      .edit fun _ _ h => FileTree.setExecutable_steps h

theorem convert_within (hl : ∀ p ∈ logPath, W p) (hd : W dest) (target : Target) :
    Within W t (convert target logPath source dest) Any := by
  refine (play_within hl hd _).bind fun _ _ => Within.tree.bind fun u _ => ?_
  refine (Within.forM fun e _ => play_within hl hd e).bind fun _ _ => ?_
  split
  · exact .fail _
  · exact .pure trivial

theorem appendComparison_within (hw : W path) : Within W t (appendComparison path source dest) Any :=
  (Within.edit fun _ _ h => FileTree.update_steps hw h).bind fun _ _ =>
    .edit fun _ _ h => FileTree.update_steps hw h

theorem compare_within {place : ComparisonPlace} (hl : ∀ p ∈ logPath, W p)
    (hf : ∀ w, place = .inFile w → W w) (hb : place = .beside → W (Path.stem dest ++ ".diff"))
    (source : Option Text) : Within W t (compare place logPath dest source) Any := by
  have ht : ∀ {job : Job Text} {path}, Within W t job Any → W path →
      Within W t (job >>= fun s => appendComparison path s dest) Any :=
    fun hj hp => hj.bind fun _ _ => appendComparison_within hp
  have hc : ∀ path, W path → Within W t (compare (.inFile path) logPath dest source) Any := by
    intro path hp
    cases source with
    | none => exact Within.bind (Within.pure rfl) fun w hw => ht (.sourceOf dest) (hw ▸ hp)
    | some s => exact Within.bind (Within.pure rfl) fun w hw => ht (.pure trivial) (hw ▸ hp)
  cases place with
  | nowhere => exact .pure trivial
  | beside =>
    refine (log_within hl _).bind fun _ _ => ?_
    exact hc _ (hb rfl)
  | inFile path => exact hc path (hf path rfl)

theorem checkWritable_within (path : Text) : Within W t (checkWritable path) fun r =>
    ∀ full ∈ r, full = t.fullPath path := by
  refine Within.tree.bind fun u hu => ?_
  dsimp only
  split
  · refine .pure fun full hf => ?_
    rw [← Option.some.inj hf]
    exact FileTree.fullPath_congr hu.touches.grows.here_eq path
  · exact (Within.print _).bind fun _ _ => .pure fun full hf => by cases hf

theorem namedPlace_within (name inDirectory : Text) : Within W t (namedPlace name inDirectory) fun place =>
    ∀ w, place = .inFile w → w = Path.join name inDirectory ∨ w = name := by
  refine Within.tree.bind fun u _ => ?_
  split
  · refine (checkWritable_within name).bind fun r _ => ?_
    split
    · exact .pure fun w hw => .inl (ComparisonPlace.inFile.inj hw).symm
    · exact (Within.print _).bind fun _ _ => .pure fun w hw => by cases hw
  · refine .pure fun w hw => .inr ?_
    rw [ComparisonPlace.ofName] at hw
    split at hw
    · cases hw
    · exact (ComparisonPlace.inFile.inj hw).symm

theorem comparisonFiles_of_diff {o : Options} {name dest : Text} (hd : o.diff = some name) :
    o.comparisonFiles dest = [Path.stem dest ++ ".diff", name,
      Path.join name (Path.stem (Path.baseName dest) ++ ".diff"), Path.join name comparisonsName] := by
  rw [Options.comparisonFiles, hd]

theorem placeForOne_within (o : Options) (dest : Text) : Within W t (placeForOne o dest) fun place =>
    (∀ w, place = .inFile w → w ∈ o.comparisonFiles dest) ∧
      (place = .beside → Path.stem dest ++ ".diff" ∈ o.comparisonFiles dest) := by
  rw [placeForOne]
  cases hd : o.diff with
  | none => exact .pure ⟨fun w hw => (by cases hw), fun h => (by cases h)⟩
  | some name =>
    rw [comparisonFiles_of_diff hd]
    dsimp only
    split
    · exact .pure ⟨fun w hw => (by cases hw), fun _ => (by simp)⟩
    · refine (namedPlace_within _ _).mono fun place hp => ⟨fun w hw => ?_, fun _ => by simp⟩
      rcases hp w hw with rfl | rfl <;> simp

theorem placeForSeveral_within (o : Options) (dest : Text) : Within W t (placeForSeveral o dest)
    fun place => ∀ w, place = .inFile w → w ∈ o.comparisonFiles dest ∨ w = Path.join dest comparisonsName := by
  rw [placeForSeveral]
  split
  · exact .pure fun w hw => by cases hw
  · cases hd : o.diff with
    | none => exact .pure fun w hw => by cases hw
    | some name =>
      rw [comparisonFiles_of_diff hd]
      dsimp only
      split
      · exact .pure fun w hw => .inr (ComparisonPlace.inFile.inj hw).symm
      · refine (namedPlace_within _ _).mono fun place hp w hw => .inl ?_
        rcases hp w hw with rfl | rfl <;> simp

end Steps

section Copies

variable {W : Text → Prop} {t : FileTree} {source dest w : Text}

theorem below_copyPath {file : Text} (h : Path.Below dest w) (hn : Path.IsName (Path.baseName file))
    (u : FileTree) : Path.Below dest (u.copyPath file w) := by
  rw [FileTree.copyPath]
  split
  · exact h.join hn
  · exact h

theorem makeDestination_within (dest : Text) : Within W t (makeDestination dest) Any := by
  refine (Within.makeDirectories dest).bind fun r _ => ?_
  split
  · exact .pure trivial
  · exact .leaveWith _

theorem copyVisit_within (ht : t.Sound) {path : Text}
    (hW : ∀ w, Path.Below (Text.replaceAll path source dest) w → W w)
    {directories files : List Text} (hdi : ∀ d ∈ directories, Path.IsName d)
    (hfi : ∀ f ∈ files, Path.IsName f) :
    Within W t (copyVisit source dest path directories files) fun below => ∀ d ∈ below, Path.IsName d := by
  refine (Within.forM fun d _ => ?_).bind fun _ _ => (Within.forM fun f hf => ?_).bind fun _ _ => ?_
  · refine (Within.makeDirectories _).bind fun r _ => ?_
    split
    · exact .pure trivial
    · exact .fail _
  · refine Within.tree.bind fun u _ => ?_
    split
    · exact .fail _
    · exact .pure trivial
    · exact .copyFile ht fun u hn => hW _ (below_copyPath (Path.Below.refl.join (hfi f hf)) hn u)
  · exact .pure fun d hd => hdi d (mem_of_mem_filter hd)

theorem copyDirectory_within (ht : t.Sound) (o : Options) (hde : ∀ w, Path.Below dest w → W w)
    (hW : ∀ path w, Path.Below source path → Path.Below (Text.replaceAll path source dest) w → W w) :
    Within W t (copyDirectory o source dest) Any := by
  refine (makeDestination_within dest).bind fun _ _ => ?_
  split
  · refine Within.tree.bind fun u _ => .forM fun f _ => .copyFile ht fun u hn => hde _ ?_
    exact below_copyPath .refl hn u
  · refine Within.tree.bind fun u _ => ?_
    exact Within.walk ht (fun path name hp hn => hp.join hn) (fun path _ _ hp hd hf =>
        copyVisit_within ht (fun w hw => hW path w hp hw) hd hf) _ source .refl

theorem copyListed_within (ht : t.Sound) (hW : ∀ w, Path.Below dest w → W w) (files : List Text) :
    Within W t (copyListed dest files) Any := by
  have hc : Within W t (files.forM fun f => do
      if (← tree).hasFile f then
        let copyPath := Path.join dest (Path.baseName f)
        copyFile f copyPath copyPath
      else print ("File `" ++ f ++ "` not found, ignored\n")) Any := by
    refine .forM fun f _ => Within.tree.bind fun u _ => ?_
    split
    · exact .copyFile ht fun u hn => hW _ (below_copyPath (Path.Below.refl.join hn) hn u)
    · exact .print _
  refine Within.tree.bind fun u _ => ?_
  split
  · exact (makeDestination_within dest).bind fun _ _ => hc
  · exact hc

theorem readListing_within (path : Text) : Within W t (readListing path) Any := by
  refine Within.tree.bind fun u _ => ?_
  split
  · rename_i bytes _
    cases Listing.ofBytes bytes with
    | ok l => exact .pure trivial
    | error f => exact .fail f
  · exact .leaveWith _

theorem convertDirectory_within (ht : t.Sound) (o : Options) {logPath : Option Text}
    {place : ComparisonPlace} (hl : ∀ p ∈ logPath, W p) (hfile : ∀ w, place = .inFile w → W w)
    (hW : ∀ w, Path.Below dest w → W w) : Within W t (convertDirectory o logPath place dest) Any := by
  refine (log_within hl _).bind fun _ _ => Within.tree.bind fun u _ => ?_
  refine Within.walk ht (fun path name hp hn => Path.Below.join hp hn)
    (fun path directories files hp hd hfi => ?_) _ dest Path.Below.refl
  refine (Within.forM fun f hf => ?_).bind fun _ _ => .pure hd
  have hn := hfi f hf
  exact (convert_within hl (hW _ (hp.join hn)) o.target).bind fun _ _ =>
    compare_within hl hfile (fun _ => hW _ (hp.stem_join hn.2.1 (by decide) (by decide))) none

end Copies

end Job

end QtMigration
