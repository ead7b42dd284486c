import GuardedCommand.CommandLine.Run
import GuardedCommand.Proofs.ExclusiveClaims
import GuardedCommand.Proofs.SingleShorthand
import Mathlib.Data.List.Induction
import Mathlib.Data.String.Basic

/-! # History of a registry

A registry begins empty and is changed in two ways: an axiom is registered, or the definitions in a
directory are loaded, as far as they can be read. Registering replaces an axiom as a whole. Loading
replaces definitions and leaves triggers alone. So what a registry holds under a name is told by two
changes only: the last one that gave the name definitions, and the last one that registered it.

* `RegistryChange`, `Registry.after`: the changes, and the registry after some of them.
* `RegistryChange.Defines`, `RegistryChange.Writes`: which definitions a change gives to a name,
  read off the files alone.
* `Registry.get?_load`, `RegistryChange.get?_apply`: what one change does to a name.
* `Registry.last_change_counts`: what all changes together do.
-/

namespace GuardedCommand

/-! ## Changes -/

/-- A change of a registry. -/
inductive RegistryChange where
  /-- An axiom is registered. -/
  | register (a : Axiom)
  /-- A directory is loaded, up to the first file that cannot be read. -/
  | load (host : Host Id) (dir : String)

/-- The registry after a change. What was loaded before an error stays. -/
def RegistryChange.apply (r : Registry) : RegistryChange → Registry
  | .register a => r.register a
  | .load host dir => (Id.run (r.loadDir host dir)).1

/-- The registry after some changes of the empty one. -/
def Registry.after (changes : List RegistryChange) : Registry :=
  changes.foldl RegistryChange.apply .empty

/-- A file among `files` is read, and so are all those before it in the order of their names. -/
structure ReadInOrder (read : String → Except FileError String) (files : List String)
    (file text : String) : Prop where
  /-- The file is there. -/
  mem : file ∈ files
  /-- Its content. -/
  read_eq : read file = .ok text
  /-- No file before it stops the reading. -/
  before : ∀ earlier ∈ files, earlier < file → ∃ t, read earlier = .ok t

/-- The last file that is read for the axiom `name` has the content `text`. -/
def LastRead (read : String → Except FileError String) (files : List String)
    (name text : String) : Prop :=
  ∃ file, ReadInOrder read files file text ∧ axiomName (fileStem file) = name ∧
    ∀ later t, ReadInOrder read files later t → axiomName (fileStem later) = name → later ≤ file

/-- The files with definitions in a directory, in no particular order. There are none if the
directory cannot be listed. -/
def Host.definitionFiles (host : Host Id) (dir : String) : List String :=
  match Id.run (host.listDir dir) with
  | .ok names => names.filter fun name => fileExtension? name = some "ax"
  | .error _ => []

/-- The content of a file in a directory. -/
def Host.readIn (host : Host Id) (dir file : String) : Except FileError String :=
  Id.run (host.readText (joinPath dir file))

namespace RegistryChange

/-- A change gives the axiom `name` the definitions `text`. -/
def Defines (name text : String) : RegistryChange → Prop
  | .register a => a.name = name ∧ a.definition = text
  | .load host dir => LastRead (host.readIn dir) (host.definitionFiles dir) name text

/-- A change gives the axiom `name` some definitions. -/
def Writes (name : String) (c : RegistryChange) : Prop :=
  ∃ text, c.Defines name text

/-- A change registers the axiom `name`. -/
def Registers (name : String) : RegistryChange → Prop
  | .register a => a.name = name
  | .load _ _ => False

end RegistryChange

/-- `x` is the last of some elements with a property. -/
def IsLast {α : Type} (P : α → Prop) (xs : List α) (x : α) : Prop :=
  ∃ before after, xs = before ++ x :: after ∧ P x ∧ ∀ y ∈ after, ¬ P y

/-- After one more element the last one with a property is this one, if it has the property. -/
theorem isLast_concat {α : Type} {P : α → Prop} {xs : List α} {x y : α} :
    IsLast P (xs ++ [x]) y ↔ P x ∧ y = x ∨ ¬ P x ∧ IsLast P xs y := by
  constructor
  · rintro ⟨before, after, heq, hy, hafter⟩
    -- either `y` is the last element of all, or the last one is among those after it
    rcases List.eq_nil_or_concat after with rfl | ⟨after, z, rfl⟩
    · obtain ⟨-, hxy⟩ := List.append_inj' heq rfl
      cases hxy
      exact .inl ⟨hy, rfl⟩
    · have heq' : xs ++ [x] = (before ++ y :: after) ++ [z] := by
        rw [heq, List.concat_eq_append, List.append_assoc, List.cons_append]
      obtain ⟨rfl, hxz⟩ := List.append_inj' heq' rfl
      cases hxz
      rw [List.concat_eq_append] at hafter
      refine .inr ⟨hafter x (List.mem_append_right _ (List.mem_singleton_self x)),
        before, after, rfl, hy, fun z hz => hafter z (List.mem_append_left _ hz)⟩
  · rintro (⟨hx, rfl⟩ | ⟨hx, before, after, rfl, hy, hafter⟩)
    · exact ⟨xs, [], rfl, hx, fun _ h => by cases h⟩
    · refine ⟨before, after ++ [x], by simp, hy, ?_⟩
      rw [List.forall_mem_append, List.forall_mem_singleton]
      exact ⟨hafter, hx⟩

namespace Registry

/-! ## One axiom -/

/-- An axiom is found at the front or else behind it. -/
theorem find?_cons_name (a : Axiom) (axioms : List Axiom) (name : String) :
    ((a :: axioms).find? fun b => b.name = name) =
      if a.name = name then some a else axioms.find? fun b => b.name = name := by
  rw [List.find?_cons]
  by_cases ha : a.name = name <;> simp [ha]

/-- After an insertion the new axiom is found under its name, and all others as before. -/
theorem find?_insertSorted (a : Axiom) (axioms : List Axiom) (name : String) :
    ((insertSorted a axioms).find? fun b => b.name = name) =
      if a.name = name then some a else axioms.find? fun b => b.name = name := by
  induction axioms with
  | nil => exact find?_cons_name a [] name
  | cons b bs ih =>
    rw [insertSorted, find?_cons_name b]
    by_cases hlt : a.name < b.name
    · rw [if_pos hlt, find?_cons_name, find?_cons_name]
    · by_cases heq : a.name = b.name
      · -- the axiom takes the place of the one with its name
        rw [if_neg hlt, if_pos heq, find?_cons_name, heq]
        split_ifs <;> rfl
      · rw [if_neg hlt, if_neg heq, find?_cons_name, ih]
        by_cases hb : b.name = name
        · rw [if_pos hb, if_pos hb, if_neg fun ha => heq (ha.trans hb.symm)]
        · rw [if_neg hb, if_neg hb]

/-- A registered axiom is found under its name, and nothing else changes. -/
theorem get?_register (r : Registry) (a : Axiom) (name : String) :
    (r.register a).get? name = if a.name = name then some a else r.get? name :=
  find?_insertSorted a r.axioms name

/-- New definitions are found with the trigger that was there, and nothing else changes. -/
theorem get?_define (r : Registry) (name definition x : String) :
    (r.define name definition).get? x =
      if name = x then some ⟨name, definition, (r.get? name).bind Axiom.trigger?⟩ else r.get? x :=
  get?_register r _ x

/-- New definitions leave every trigger alone. -/
theorem bind_get?_define (r : Registry) (name definition x : String) :
    ((r.define name definition).get? x).bind Axiom.trigger? =
      (r.get? x).bind Axiom.trigger? := by
  rw [get?_define]
  split_ifs with h
  · rw [h, Option.bind_some]
  · rfl

/-! ## Several files -/

variable {read : String → Except FileError String} {files : List String} {first : String}

/-- Files that are loaded, with the names of their axioms and their contents. -/
def contents (read : String → Except FileError String) (files : List String) :
    List (String × Except FileError String) :=
  files.map fun file => (axiomName (fileStem file), read file)

/-- Nothing is read past a first file that cannot be read. -/
theorem not_readInOrder_of_error {e : FileError} (hsorted : ∀ file ∈ files, first ≤ file)
    (herror : read first = .error e) (file text : String) :
    ¬ ReadInOrder read (first :: files) file text := by
  intro h
  have hle : first ≤ file := by
    rcases List.mem_cons.mp h.mem with rfl | hmem
    · exact le_refl _
    · exact hsorted file hmem
  rcases hle.lt_or_eq with hlt | rfl
  · obtain ⟨t, ht⟩ := h.before first List.mem_cons_self hlt
    rw [herror] at ht
    cases ht
  · have hread := h.read_eq
    rw [herror] at hread
    cases hread

/-- After a first file that is read, the others are read as if it were not there. -/
theorem readInOrder_cons {content : String} (hsorted : ∀ file ∈ files, first ≤ file)
    (hread : read first = .ok content) {file text : String} :
    ReadInOrder read (first :: files) file text ↔
      file = first ∧ text = content ∨ ReadInOrder read files file text := by
  constructor
  · rintro ⟨hmem, htext, hbefore⟩
    rcases List.mem_cons.mp hmem with rfl | hmem
    · exact .inl ⟨rfl, Except.ok.inj (htext.symm.trans hread)⟩
    · exact .inr ⟨hmem, htext, fun earlier he => hbefore earlier (List.mem_cons_of_mem _ he)⟩
  · rintro (⟨rfl, rfl⟩ | ⟨hmem, htext, hbefore⟩)
    · refine ⟨List.mem_cons_self, hread, fun earlier he hlt => ?_⟩
      rcases List.mem_cons.mp he with rfl | he
      · exact absurd hlt (lt_irrefl _)
      · exact absurd hlt (not_lt.mpr (hsorted earlier he))
    · refine ⟨List.mem_cons_of_mem _ hmem, htext, fun earlier he hlt => ?_⟩
      rcases List.mem_cons.mp he with rfl | he
      · exact ⟨content, hread⟩
      · exact hbefore earlier he hlt

/-- A first file does not change what is read last for an axiom. -/
theorem lastRead_cons {content name text : String} (hsorted : ∀ file ∈ files, first ≤ file)
    (hread : read first = .ok content) (h : LastRead read files name text) :
    LastRead read (first :: files) name text := by
  obtain ⟨file, hfile, hname, hlast⟩ := h
  refine ⟨file, (readInOrder_cons hsorted hread).mpr (.inr hfile), hname,
    fun later t hlater hkey => ?_⟩
  rcases (readInOrder_cons hsorted hread).mp hlater with ⟨rfl, -⟩ | hlater
  · exact hsorted file hfile.mem
  · exact hlast later t hlater hkey

/-- It is the last file for its own axiom if no other file has this axiom. -/
theorem lastRead_first {content name : String} (hsorted : ∀ file ∈ files, first ≤ file)
    (hread : read first = .ok content) (hname : axiomName (fileStem first) = name)
    (hnone : ∀ file text, ReadInOrder read files file text → axiomName (fileStem file) ≠ name) :
    LastRead read (first :: files) name content := by
  refine ⟨first, (readInOrder_cons hsorted hread).mpr (.inl ⟨rfl, rfl⟩), hname,
    fun later t hlater hkey => ?_⟩
  rcases (readInOrder_cons hsorted hread).mp hlater with ⟨rfl, -⟩ | hlater
  · exact le_refl _
  · exact absurd hkey (hnone later t hlater)

/-- Loading files in the order of their names: a name that is read gets the definitions of the last
file for it and keeps its trigger, and any other name is left alone. -/
theorem get?_load (hsorted : files.Pairwise (· ≤ ·)) (r : Registry) (name : String) :
    (∃ text, LastRead read files name text ∧ (r.load (contents read files)).1.get? name =
      some ⟨name, text, (r.get? name).bind Axiom.trigger?⟩) ∨
    (∀ file text, ReadInOrder read files file text → axiomName (fileStem file) ≠ name) ∧
      (r.load (contents read files)).1.get? name = r.get? name := by
  -- the first file comes before all others, so it counts only where no other file has its axiom
  induction files generalizing r with
  | nil => exact .inr ⟨fun file text h => absurd h.mem List.not_mem_nil, rfl⟩
  | cons first files ih =>
    obtain ⟨hfirst, hsorted⟩ := List.pairwise_cons.mp hsorted
    cases hread : read first with
    | error e =>
      refine .inr
        ⟨fun file text h => absurd h (not_readInOrder_of_error hfirst hread file text), ?_⟩
      rw [contents, List.map_cons, hread, load]
    | ok content =>
      have hload : (r.load (contents read (first :: files))).1 =
          ((r.define (axiomName (fileStem first)) content).load (contents read files)).1 := by
        rw [contents, List.map_cons, hread, load]
        rfl
      rw [hload]
      rcases ih hsorted (r.define (axiomName (fileStem first)) content) with
        ⟨text, hlast, hget⟩ | ⟨hnone, hget⟩
      · -- a later file has the same axiom
        rw [bind_get?_define] at hget
        exact .inl ⟨text, lastRead_cons hfirst hread hlast, hget⟩
      · rw [get?_define] at hget
        by_cases hkey : axiomName (fileStem first) = name
        · refine .inl ⟨content, lastRead_first hfirst hread hkey hnone, hget.trans ?_⟩
          rw [if_pos hkey, hkey]
        · rw [if_neg hkey] at hget
          refine .inr ⟨fun file text hfile => ?_, hget⟩
          rcases (readInOrder_cons hfirst hread).mp hfile with ⟨rfl, -⟩ | hfile
          · exact hkey
          · exact hnone file text hfile

/-! ## Directories -/

/-- The axiom files are the names with the extension of axioms. -/
theorem mem_axiomFiles {names : List String} {file : String} :
    file ∈ axiomFiles names ↔ file ∈ names.filter fun name => fileExtension? name = some "ax" := by
  rw [axiomFiles, List.mem_mergeSort]

/-- The axiom files are sorted. -/
theorem pairwise_axiomFiles (names : List String) : (axiomFiles names).Pairwise (· ≤ ·) :=
  pairwise_mergeSort_names _

/-- Without effects the texts are those of the single files. -/
theorem readTexts_eq_map (host : Host Id) (paths : List String) :
    host.readTexts paths = paths.map host.readText := by
  induction paths with
  | nil => rfl
  | cons path paths ih => exact congrArg (host.readText path :: ·) ih

/-- Loading a directory is loading the files with definitions in the order of their names. -/
theorem loadDir_eq_load (host : Host Id) (r : Registry) (dir : String) :
    ∃ files : List String, files.Pairwise (· ≤ ·) ∧
      (∀ file, file ∈ files ↔ file ∈ host.definitionFiles dir) ∧
      (Id.run (r.loadDir host dir)).1 = (r.load (contents (host.readIn dir) files)).1 := by
  cases hlist : host.listDir dir with
  | error e =>
    refine ⟨[], .nil, fun file => ?_, ?_⟩
    · rw [Host.definitionFiles, hlist]
      rfl
    · rw [loadDir, hlist]
      rfl
  | ok names =>
    refine ⟨axiomFiles names, pairwise_axiomFiles names, fun file => ?_, ?_⟩
    · rw [mem_axiomFiles, Host.definitionFiles, hlist]
      rfl
    · have hcontents : contents (host.readIn dir) (axiomFiles names) =
          ((axiomFiles names).map fun name => axiomName (fileStem name)).zip
            (host.readTexts ((axiomFiles names).map (joinPath dir))) := by
        rw [readTexts_eq_map, List.map_map, List.zip_map']
        rfl
      rw [loadDir, hlist, hcontents]
      rfl

/-- The order of a list does not matter for what is read of it. -/
theorem readInOrder_congr {files' : List String} (h : ∀ file, file ∈ files ↔ file ∈ files')
    {file text : String} :
    ReadInOrder read files file text ↔ ReadInOrder read files' file text := by
  constructor
  · rintro ⟨hmem, htext, hbefore⟩
    exact ⟨(h file).mp hmem, htext, fun earlier he => hbefore earlier ((h earlier).mpr he)⟩
  · rintro ⟨hmem, htext, hbefore⟩
    exact ⟨(h file).mpr hmem, htext, fun earlier he => hbefore earlier ((h earlier).mp he)⟩

end Registry

namespace RegistryChange

variable {name text : String}

/-- The trigger of a name after a change that wrote it, given the one before. -/
def triggerAfter (before : Option Trigger) : RegistryChange → Option Trigger
  | .register a => a.trigger?
  | .load _ _ => before

/-- A change gives one text of definitions only. -/
theorem eq_of_defines {c : RegistryChange} {text' : String} (h : c.Defines name text)
    (h' : c.Defines name text') : text = text' := by
  cases c with
  | register a => exact h.2.symm.trans h'.2
  | load host dir =>
    obtain ⟨file, hfile, hkey, hlast⟩ := h
    obtain ⟨file', hfile', hkey', hlast'⟩ := h'
    obtain rfl : file = file' :=
      le_antisymm (hlast' file text hfile hkey) (hlast file' text' hfile' hkey')
    exact Except.ok.inj (hfile.read_eq.symm.trans hfile'.read_eq)

/-- What one change does to a name: it leaves the definitions that it gives, with the trigger that
it registers or else the old one, or it leaves the name alone. -/
theorem get?_apply (c : RegistryChange) (r : Registry) (name : String) :
    (∃ text, c.Defines name text ∧ (c.apply r).get? name =
      some ⟨name, text, c.triggerAfter ((r.get? name).bind Axiom.trigger?)⟩) ∨
    ¬ c.Writes name ∧ (c.apply r).get? name = r.get? name := by
  cases c with
  | register a =>
    rw [apply, Registry.get?_register]
    by_cases ha : a.name = name
    · subst ha
      exact .inl ⟨a.definition, ⟨rfl, rfl⟩, if_pos rfl⟩
    · refine .inr ⟨?_, if_neg ha⟩
      rintro ⟨text, hname, -⟩
      exact ha hname
  | load host dir =>
    -- The files are loaded in the order of their names, so a later one overrides an earlier one.
    obtain ⟨files, hsorted, hfiles, hload⟩ := Registry.loadDir_eq_load host r dir
    have hread : ∀ file text, ReadInOrder (host.readIn dir) files file text ↔
        ReadInOrder (host.readIn dir) (host.definitionFiles dir) file text := fun _ _ =>
      Registry.readInOrder_congr hfiles
    rw [apply, hload]
    rcases Registry.get?_load hsorted r name with ⟨text, hlast, hget⟩ | ⟨hnone, hget⟩
    · refine .inl ⟨text, ?_, hget⟩
      simpa only [LastRead, hread, Defines] using hlast
    · refine .inr ⟨?_, hget⟩
      rintro ⟨text, file, hfile, hkey, -⟩
      exact hnone file text ((hread file text).mpr hfile) hkey

/-- Loading leaves every trigger alone, whether or not it succeeds. -/
theorem bind_get?_load (host : Host Id) (dir : String) (r : Registry) (name : String) :
    (((load host dir).apply r).get? name).bind Axiom.trigger? =
      (r.get? name).bind Axiom.trigger? := by
  rcases get?_apply (.load host dir) r name with ⟨text, -, hget⟩ | ⟨-, hget⟩
  · rw [hget]
    rfl
  · rw [hget]

end RegistryChange

namespace Registry

/-! ## All changes -/

/-- The registry after one more change. -/
theorem after_concat (changes : List RegistryChange) (c : RegistryChange) :
    after (changes ++ [c]) = c.apply (after changes) := by
  rw [after, after, List.foldl_concat]

/-- The definitions of a name are those of the last change that wrote it. -/
theorem definition_after (changes : List RegistryChange) (name text : String) :
    (∃ a, (after changes).get? name = some a ∧ a.definition = text) ↔
      ∃ c, IsLast (·.Writes name) changes c ∧ c.Defines name text := by
  -- the last change either wrote the name, or what was found before is found still
  induction changes using List.reverseRecOn with
  | nil =>
    constructor
    · rintro ⟨a, h, -⟩
      cases h
    · rintro ⟨c, ⟨before, later, h, -⟩, -⟩
      exact absurd h (by simp)
  | append_singleton changes c ih =>
    simp only [isLast_concat, after_concat]
    rcases c.get?_apply (after changes) name with ⟨text', hdefines, hget⟩ | ⟨hwrites, hget⟩
    · have hwrites : c.Writes name := ⟨text', hdefines⟩
      rw [hget]
      constructor
      · rintro ⟨a, ha, rfl⟩
        cases ha
        exact ⟨c, .inl ⟨hwrites, rfl⟩, hdefines⟩
      · rintro ⟨d, ⟨-, rfl⟩ | ⟨hnot, -⟩, hd⟩
        · exact ⟨_, rfl, RegistryChange.eq_of_defines hdefines hd⟩
        · exact absurd hwrites hnot
    · rw [hget, ih]
      constructor
      · rintro ⟨d, hlast, hd⟩
        exact ⟨d, .inr ⟨hwrites, hlast⟩, hd⟩
      · rintro ⟨d, ⟨hc, -⟩ | ⟨-, hlast⟩, hd⟩
        · exact absurd hc hwrites
        · exact ⟨d, hlast, hd⟩

/-- The trigger of a name is that of its last registration. -/
theorem trigger_after (changes : List RegistryChange) (name : String) :
    (∃ b, IsLast (·.Registers name) changes (.register b) ∧
      ((after changes).get? name).bind Axiom.trigger? = b.trigger?) ∨
    (∀ c ∈ changes, ¬ c.Registers name) ∧
      ((after changes).get? name).bind Axiom.trigger? = none := by
  -- stated for names that are not there as well, since a load may add them later
  induction changes using List.reverseRecOn with
  | nil => exact .inr ⟨fun _ h => absurd h List.not_mem_nil, rfl⟩
  | append_singleton changes c ih =>
    by_cases hc : c.Registers name
    · cases c with
      | load host dir => exact absurd hc id
      | register b =>
        have hname : b.name = name := hc
        refine .inl ⟨b, isLast_concat.mpr (.inl ⟨hc, rfl⟩), ?_⟩
        rw [after_concat, RegistryChange.apply, get?_register, if_pos hname]
        rfl
    · have hsame : ((after (changes ++ [c])).get? name).bind Axiom.trigger? =
          ((after changes).get? name).bind Axiom.trigger? := by
        rw [after_concat]
        cases c with
        | load host dir => exact RegistryChange.bind_get?_load host dir _ name
        | register b =>
          have hname : b.name ≠ name := hc
          rw [RegistryChange.apply, get?_register, if_neg hname]
      rw [hsame]
      rcases ih with ⟨b, hlast, htrigger⟩ | ⟨hnone, htrigger⟩
      · exact .inl ⟨b, isLast_concat.mpr (.inr ⟨hc, hlast⟩), htrigger⟩
      · refine .inr ⟨?_, htrigger⟩
        rw [List.forall_mem_append, List.forall_mem_singleton]
        exact ⟨hnone, hc⟩

/-! ## The order of the axioms -/

/-- An insertion keeps the axioms in the order of their names. -/
theorem pairwise_insertSorted {a : Axiom} {axioms : List Axiom}
    (h : axioms.Pairwise fun b c => b.name < c.name) :
    (insertSorted a axioms).Pairwise fun b c => b.name < c.name := by
  induction axioms with
  | nil => exact List.pairwise_singleton _ a
  | cons b bs ih =>
    obtain ⟨hb, hbs⟩ := List.pairwise_cons.mp h
    rw [insertSorted]
    split_ifs with hlt heq
    · refine List.pairwise_cons.mpr ⟨fun c hc => ?_, h⟩
      rcases List.mem_cons.mp hc with rfl | hc
      · exact hlt
      · exact lt_trans hlt (hb c hc)
    · exact List.pairwise_cons.mpr ⟨fun c hc => heq ▸ hb c hc, hbs⟩
    · have hba : b.name < a.name := lt_of_le_of_ne (not_lt.mp hlt) fun h => heq h.symm
      refine List.pairwise_cons.mpr ⟨fun c hc => ?_, ih hbs⟩
      rcases mem_of_mem_insertSorted hc with rfl | hc
      · exact hba
      · exact hb c hc

/-- Loading files keeps the axioms in the order of their names. -/
theorem pairwise_load {ε : Type} {r : Registry} (h : r.axioms.Pairwise fun b c => b.name < c.name)
    (files : List (String × Except ε String)) :
    (r.load files).1.axioms.Pairwise fun b c => b.name < c.name := by
  induction files generalizing r with
  | nil => exact h
  | cons file files ih =>
    obtain ⟨name, content⟩ := file
    cases content with
    | error e => exact h
    | ok definition => exact ih (pairwise_insertSorted h)

/-- The axioms are always in the order of their names. -/
theorem pairwise_after (changes : List RegistryChange) :
    (after changes).axioms.Pairwise fun b c => b.name < c.name := by
  induction changes using List.reverseRecOn with
  | nil => exact .nil
  | append_singleton changes c ih =>
    rw [after_concat]
    cases c with
    | register a => exact pairwise_insertSorted ih
    | load host dir =>
      obtain ⟨files, -, -, hload⟩ := loadDir_eq_load host (after changes) dir
      rw [RegistryChange.apply, hload]
      exact pairwise_load ih _

/-- In order, every axiom is found under its name. -/
theorem get?_eq_some_iff {r : Registry} (h : r.axioms.Pairwise fun b c => b.name < c.name)
    {name : String} {a : Axiom} : r.get? name = some a ↔ a ∈ r.axioms ∧ a.name = name := by
  constructor
  · intro hget
    exact ⟨List.mem_of_find?_eq_some hget, name_of_get? hget⟩
  · rintro ⟨ha, rfl⟩
    obtain ⟨axioms⟩ := r
    rw [get?]
    induction axioms with
    | nil => cases ha
    | cons b bs ih =>
      obtain ⟨hb, hbs⟩ := List.pairwise_cons.mp h
      rw [find?_cons_name]
      rcases List.mem_cons.mp ha with rfl | ha
      · rw [if_pos rfl]
      · rw [if_neg (hb a ha).ne, ih hbs ha]

/-- What a registry holds after any changes, with loads that fail among them. There is one axiom for
each name, and it is found there. Its definitions are those of the last change that wrote the name,
and its trigger is that of the last registration; a name that was never registered has none, since
loading leaves triggers alone. The built-in axioms are such a registry. -/
theorem last_change_counts (changes : List RegistryChange) :
    (after changes).axioms.Pairwise (fun a b => a.name < b.name) ∧
    (∀ name a, (after changes).get? name = some a ↔ a ∈ (after changes).axioms ∧ a.name = name) ∧
    (∀ name text, (∃ a, (after changes).get? name = some a ∧ a.definition = text) ↔
      ∃ c, IsLast (·.Writes name) changes c ∧ c.Defines name text) ∧
    (∀ name a, (after changes).get? name = some a →
      (∃ b, IsLast (·.Registers name) changes (.register b) ∧ a.trigger? = b.trigger?) ∨
      (∀ c ∈ changes, ¬ c.Registers name) ∧ a.trigger? = none) ∧
    (∀ host dir name, ((after (changes ++ [.load host dir])).get? name).bind Axiom.trigger? =
      ((after changes).get? name).bind Axiom.trigger?) ∧
    ∃ axioms : List Axiom, builtin = after (axioms.map .register) := by
  have hsorted := pairwise_after changes
  refine ⟨hsorted, fun name a => get?_eq_some_iff hsorted, definition_after changes,
    fun name a ha => ?_, fun host dir name => ?_, ?_⟩
  · have htrigger := trigger_after changes name
    rwa [ha, Option.bind_some] at htrigger
  · rw [after_concat]
    exact RegistryChange.bind_get?_load host dir _ name
  · rw [builtin]
    exact ⟨_, (List.foldl_map (f := RegistryChange.register) (g := RegistryChange.apply)).symm⟩

/-- Two spellings of one name, and a directory among the files, which cannot be read. -/
def spellings : Host Id where
  readFile path :=
    if path = "axioms/sum-up.ax" then .ok "; hyphen".toUTF8
    else if path = "axioms/sum_up.ax" then .ok "; underscore".toUTF8
    else .error .isDirectory
  listDir _ := .ok ["zeta.ax", "sum_up.ax", "notes.txt", "sum-up.ax"]
  isFile _ := false
  isPresent _ := true
  runProver _ _ := .error ""

/-- An axiom with a trigger. -/
def sumUp : Axiom := ⟨"SUM_UP", "; given", some .arraySum⟩

/-- The axiom is registered, and then its definitions are loaded twice, before loading fails. -/
def spelledTwice : List RegistryChange :=
  [.register sumUp, .load spellings "axioms"]

/-- A file with the bytes of a text has this text as its content. -/
theorem readIn_of_readFile {host : Host Id} {dir file text : String}
    (h : host.readFile (joinPath dir file) = .ok text.toUTF8) :
    host.readIn dir file = .ok text := by
  have hvalid : text.toUTF8.IsValidUTF8 := text.isValidUTF8
  have hdecode : decodeText text.toUTF8 = .ok text := by
    rw [decodeText, String.fromUTF8?, dif_pos hvalid]
    rfl
  rw [Host.readIn, Host.readText, h]
  exact hdecode

/-- The definition files of `spellings`. -/
theorem mem_spellings {file : String} :
    file ∈ spellings.definitionFiles "axioms" ↔
      file = "zeta.ax" ∨ file = "sum_up.ax" ∨ file = "sum-up.ax" := by
  have hfiles : spellings.definitionFiles "axioms" = ["zeta.ax", "sum_up.ax", "sum-up.ax"] := by
    decide +kernel
  rw [hfiles]
  simp

/-- The later spelling has the last word, although the file after it cannot be read. -/
theorem lastRead_spellings : LastRead (spellings.readIn "axioms")
    (spellings.definitionFiles "axioms") "SUM_UP" "; underscore" := by
  have hhyphen : spellings.readIn "axioms" "sum-up.ax" = .ok "; hyphen" := by
    have hpath : joinPath "axioms" "sum-up.ax" = "axioms/sum-up.ax" := by decide +kernel
    exact readIn_of_readFile (by simp [spellings, hpath])
  have hunderscore : spellings.readIn "axioms" "sum_up.ax" = .ok "; underscore" := by
    have hpath : joinPath "axioms" "sum_up.ax" = "axioms/sum_up.ax" := by decide +kernel
    exact readIn_of_readFile (by simp [spellings, hpath])
  refine ⟨"sum_up.ax", ⟨mem_spellings.mpr (.inr (.inl rfl)), hunderscore, ?_⟩,
    by decide +kernel, ?_⟩
  · intro earlier hmem hlt
    rcases mem_spellings.mp hmem with rfl | rfl | rfl
    · exact absurd hlt (by decide)
    · exact ⟨_, hunderscore⟩
    · exact ⟨_, hhyphen⟩
  · intro later t hlater hkey
    rcases mem_spellings.mp hlater.mem with rfl | rfl | rfl
    · exact absurd hkey (by decide +kernel)
    · exact le_refl _
    · decide

/-- The definitions are those of the last spelling and the trigger is the registered one. -/
theorem last_change_counts_of_spellings :
    ∃ a, (after spelledTwice).get? "SUM_UP" = some a ∧ a.definition = "; underscore" ∧
      a.trigger? = some .arraySum := by
  obtain ⟨-, -, hdefinition, htrigger, -⟩ := last_change_counts spelledTwice
  have hload : RegistryChange.Defines "SUM_UP" "; underscore" (.load spellings "axioms") :=
    lastRead_spellings
  obtain ⟨a, hget, htext⟩ := (hdefinition "SUM_UP" "; underscore").mpr
    ⟨_, ⟨[_], [], rfl, ⟨_, hload⟩, fun _ h => by cases h⟩, hload⟩
  refine ⟨a, hget, htext, ?_⟩
  rcases htrigger "SUM_UP" a hget with ⟨b, hlast, hb⟩ | ⟨hnone, -⟩
  · -- nothing else was registered
    obtain ⟨before, later, heq, -⟩ := hlast
    have hmem : RegistryChange.register b ∈ spelledTwice :=
      heq ▸ List.mem_append_right _ List.mem_cons_self
    obtain rfl : b = sumUp := by simpa [spelledTwice] using hmem
    exact hb
  · exact absurd rfl (hnone _ List.mem_cons_self)

end Registry

end GuardedCommand
