import AppManager.Lib.Fuel
import AppManager.Wgtpkg.Files
import AppManager.Wgtpkg.WhatSignature
import Mathlib.Data.List.Sort

/-! The two tables of the files of a widget, after any calls: all the files in the order of their
names, and the signatures in the order of their numbers. A descriptor of a signature is pointed
at by its name, which no other descriptor has. -/

namespace AppManager.Wgtpkg
open AppManager.Lib AppManager.Lib.Libc

structure Tables where
  allfiles : Fdb
  allsignatures : List Bytes

/-- The search by bisection, where `low + up` is an `unsigned`. -/
def search (files : Fdb) (name : Bytes) : Nat → Nat → Nat → Option (Nat ⊕ Nat)
  | 0, _, _ => none
  | fuel + 1, low, up =>
    if low < up then
      let mid := (low + up) % 2 ^ 32 / 2
      files[mid]?.bind fun result =>
        if result.name = name then some (.inl mid)
        else if name < result.name then search files name fuel low mid
        else search files name fuel (mid + 1) up
    else some (.inr low)

/-- The loop that goes over the smaller numbers, and the move that makes room. -/
def insertSignature (signatures : List Bytes) (name : Bytes) : List Bytes :=
  signatures.takeWhile (whatSignature · < whatSignature name) ++
    name :: signatures.dropWhile (whatSignature · < whatSignature name)

namespace Tables
variable (fuel : Nat) (tables : Tables)

/-- A descriptor is given by its place in the array. An array that would have 2^32 places is of
no bytes for `realloc`, which gives none. -/
def getFiledesc (name : Bytes) (create : Bool) : Option (Tables × Option Nat) :=
  (search tables.allfiles name fuel 0 tables.allfiles.length).map fun
    | .inl place => (tables, some place)
    | .inr low =>
      if create ∧ tables.allfiles.length + 1 ≠ 2 ^ 32 then
        (⟨tables.allfiles.take low ++ ⟨name, .unset, 0⟩ :: tables.allfiles.drop low,
          if whatSignature name ≠ 0 then insertSignature tables.allsignatures name else tables.allsignatures⟩,
          some low)
      else (tables, none)

def fileAdd (name : Bytes) (type : EntryType) : Option (Tables × Option Nat) :=
  (tables.getFiledesc fuel name true).map fun (tables, result) =>
    match result.bind fun place => tables.allfiles[place]? with
    | none => (tables, none)
    | some desc =>
      if desc.type = .unset then
        ({ tables with allfiles := tables.allfiles.modify (result.getD 0) fun desc => { desc with type } }, result)
      else (tables, none)

def fileReset : Tables := ⟨[], []⟩

def fileOfName (name : Bytes) : Option (Tables × Option Nat) := tables.getFiledesc fuel name false
def fileAddDirectory (name : Bytes) : Option (Tables × Option Nat) := tables.fileAdd fuel name .directory
def fileAddFile (name : Bytes) : Option (Tables × Option Nat) := tables.fileAdd fuel name .file

def createSignature (number : UInt32) : Option (Tables × Option Nat) :=
  (tables.fileOfName fuel (signatureFile number.toNat)).bind fun (tables, result) =>
    if result = none then tables.fileAddFile fuel (signatureFile number.toNat) else some (tables, result)

end Tables

inductive Call where
  | reset
  | addFile (name : Bytes)
  | addDirectory (name : Bytes)
  | createSignature (number : UInt32)
  | ofName (name : Bytes)
  deriving DecidableEq, Repr

def Call.run (fuel : Nat) (tables : Tables) : Call → Option (Tables × Option Nat)
  | reset => some (Tables.fileReset, none)
  | addFile name => tables.fileAddFile fuel name
  | addDirectory name => tables.fileAddDirectory fuel name
  | createSignature number => tables.createSignature fuel number
  | ofName name => tables.fileOfName fuel name

def runCalls (fuel : Nat) (tables : Tables) : List Call → Option Tables
  | [] => some tables
  | call :: rest => (call.run fuel tables).bind fun (tables, _) => runCalls fuel tables rest

/-- What a widget has: names, each with the type it was declared with. -/
abbrev Contents := List (Bytes × EntryType)

def Contents.declare (contents : Contents) (name : Bytes) (type : EntryType) : Contents :=
  if ∃ content ∈ contents, content.1 = name then contents else (name, type) :: contents

theorem Contents.declare_known {contents : Contents} {name : Bytes} (known : name ∈ contents.map Prod.fst)
    (type : EntryType) : contents.declare name type = contents := if_pos (List.mem_map.mp known)

theorem Contents.declare_fresh {contents : Contents} {name : Bytes} (fresh : name ∉ contents.map Prod.fst)
    (type : EntryType) : contents.declare name type = (name, type) :: contents :=
  if_neg (List.mem_map.not.mp fresh)

def Call.meaning (contents : Contents) : Call → Contents
  | reset => []
  | addFile name => contents.declare name .file
  | addDirectory name => contents.declare name .directory
  | createSignature number => contents.declare (signatureFile number.toNat) .file
  | ofName _ => contents

def declared (calls : List Call) : Contents := calls.foldl Call.meaning []

theorem search_bisect {files : Fdb} (few : files.length ≤ 2 ^ 31) (name : Bytes) {fuel low up : Nat}
    (inside : up ≤ files.length) (enough : up - low < fuel) :
    search files name fuel low up = some (bisect FileDesc.name files name low up inside) := by
  induction fuel generalizing low up with
  | zero => exact absurd enough (Nat.not_lt_zero _)
  | succ fuel ih =>
    rw [search, bisect]
    by_cases more : low < up
    · have middle : (low + up) % 2 ^ 32 / 2 = (low + up) / 2 := by omega
      have within : (low + up) / 2 < files.length := by omega
      simp only [if_pos more, dif_pos more, middle, List.getElem?_eq_getElem within, Option.bind_some]
      split_ifs
      · rfl
      · exact ih (by omega) (by omega)
      · exact ih inside (by omega)
    · rw [if_neg more, dif_neg more]

def NumberLe (first second : Bytes) : Prop := whatSignature first ≤ whatSignature second

instance : DecidableRel NumberLe := fun first second =>
  inferInstanceAs (Decidable (whatSignature first ≤ whatSignature second))
instance : IsTrans Bytes NumberLe := ⟨fun _ _ _ => Nat.le_trans⟩
instance : Std.Total NumberLe := ⟨fun _ _ => Nat.le_total _ _⟩

theorem insertSignature_eq (signatures : List Bytes) (name : Bytes) :
    insertSignature signatures name = signatures.orderedInsert NumberLe name := by
  rw [List.orderedInsert_eq_take_drop]
  simp only [NumberLe, not_le]
  rfl

/-- What the tables hold, for the contents of a widget. -/
structure Tables.Good (tables : Tables) (contents : Contents) : Prop where
  tidy : tables.allfiles.Tidy
  files : (tables.allfiles.map fun desc => (desc.name, desc.type)).Perm contents
  ascending : tables.allsignatures.Pairwise NumberLe
  signatures : tables.allsignatures.Perm ((tables.allfiles.map FileDesc.name).filter fun name => whatSignature name ≠ 0)

namespace Tables
variable {tables : Tables} {contents : Contents} {fuel : Nat}

theorem Good.mem_iff (good : tables.Good contents) {name : Bytes} :
    name ∈ tables.allfiles.map FileDesc.name ↔ name ∈ contents.map Prod.fst := by
  rw [← (good.files.map Prod.fst).mem_iff, List.map_map]
  rfl

theorem Good.length_eq (good : tables.Good contents) : tables.allfiles.length = contents.length := by
  rw [← good.files.length_eq, List.length_map]

/-- The search finds the names that are there, and the place of the other ones. -/
theorem Good.search (good : tables.Good contents) (few : contents.length ≤ 2 ^ 31) (name : Bytes) :
    (name ∈ contents.map Prod.fst ∧ ∃ place desc,
      Settles (fun fuel => search tables.allfiles name fuel 0 tables.allfiles.length) (.inl place) ∧
        tables.allfiles[place]? = some desc ∧ desc.name = name) ∨
    (name ∉ contents.map Prod.fst ∧ ∃ low,
      Settles (fun fuel => search tables.allfiles name fuel 0 tables.allfiles.length) (.inr low) ∧
        low ≤ tables.allfiles.length ∧ (∀ desc ∈ tables.allfiles.take low, desc.name < name) ∧
          ∀ desc ∈ tables.allfiles.drop low, name < desc.name) := by
  rw [← good.length_eq] at few
  have run : Settles (fun fuel => Wgtpkg.search tables.allfiles name fuel 0 tables.allfiles.length)
      (bisect FileDesc.name tables.allfiles name 0 tables.allfiles.length le_rfl) :=
    ⟨tables.allfiles.length + 1, fun fuel least => search_bisect few name le_rfl least⟩
  cases searched : bisect FileDesc.name tables.allfiles name 0 tables.allfiles.length le_rfl with
  | inl place =>
    obtain ⟨desc, found, same⟩ := bisect_found FileDesc.name searched
    have known : name ∈ tables.allfiles.map FileDesc.name :=
      List.mem_map.mpr ⟨desc, List.mem_of_getElem? found, same⟩
    exact Or.inl ⟨good.mem_iff.mp known, place, desc, searched ▸ run, found, same⟩
  | inr low =>
    obtain ⟨inside, before, after⟩ := bisect_absent FileDesc.name List.lt_trans lt_of_not_lt good.tidy.ascending
      (Nat.zero_le _) (by simp) (by simp) searched
    refine Or.inr ⟨fun known => ?_, low, searched ▸ run, inside, before, after⟩
    obtain ⟨desc, member, same⟩ := List.mem_map.mp (good.mem_iff.mpr known)
    rw [← List.take_append_drop low tables.allfiles] at member
    rcases List.mem_append.mp member with front | back
    · exact absurd (before desc front) (same ▸ List.lt_irrefl _)
    · exact absurd (after desc back) (same ▸ List.lt_irrefl _)

theorem Good.fileOfName (good : tables.Good contents) (few : contents.length ≤ 2 ^ 31) (name : Bytes) :
    (name ∈ contents.map Prod.fst ∧ ∃ place desc,
      Settles (fun fuel => tables.fileOfName fuel name) (tables, some place) ∧
        tables.allfiles[place]? = some desc ∧ desc.name = name) ∨
    (name ∉ contents.map Prod.fst ∧ Settles (fun fuel => tables.fileOfName fuel name) (tables, none)) := by
  rcases good.search few name with ⟨known, place, desc, found, here, same⟩ | ⟨fresh, low, absent, -⟩
  · exact Or.inl ⟨known, place, desc, found.map _, here, same⟩
  · exact Or.inr ⟨fresh, absent.map _⟩

theorem Good.insert (good : tables.Good contents) {name : Bytes} {low : Nat}
    (before : ∀ desc ∈ tables.allfiles.take low, desc.name < name)
    (after : ∀ desc ∈ tables.allfiles.drop low, name < desc.name) {type : EntryType} (given : type ≠ .unset) :
    Good ⟨tables.allfiles.take low ++ ⟨name, type, 0⟩ :: tables.allfiles.drop low,
      if whatSignature name ≠ 0 then insertSignature tables.allsignatures name else tables.allsignatures⟩
      ((name, type) :: contents) := by
  have perm : (tables.allfiles.take low ++ (⟨name, type, 0⟩ : FileDesc) :: tables.allfiles.drop low).Perm
      (⟨name, type, 0⟩ :: tables.allfiles) := by
    apply List.perm_middle.trans
    rw [List.take_append_drop]
  refine ⟨⟨good.tidy.ascending.insert FileDesc.name ⟨name, type, 0⟩ low before after, fun desc member => ?_⟩,
    ?_, ?_, ?_⟩
  · rcases List.mem_cons.mp (perm.mem_iff.mp member) with rfl | member
    · exact given
    · exact good.tidy.declared desc member
  · have listed := perm.map fun desc : FileDesc => (desc.name, desc.type)
    exact listed.trans (good.files.cons (name, type))
  · simp only [insertSignature_eq]
    split
    · exact List.Pairwise.orderedInsert name _ good.ascending
    · exact good.ascending
  · have names := (perm.map FileDesc.name).filter fun name => whatSignature name ≠ 0
    refine List.Perm.trans ?_ names.symm
    have first : ((⟨name, type, 0⟩ : FileDesc) :: tables.allfiles).map FileDesc.name =
        name :: tables.allfiles.map FileDesc.name := rfl
    rw [first]
    by_cases signature : whatSignature name ≠ 0
    · rw [List.filter_cons_of_pos (by simpa using signature)]
      simp only [if_pos signature, insertSignature_eq]
      exact (List.perm_orderedInsert NumberLe name _).trans (good.signatures.cons name)
    · rw [List.filter_cons_of_neg (by simpa using signature)]
      simp only [if_neg signature]
      exact good.signatures

theorem Good.fileAdd (good : tables.Good contents) (few : contents.length ≤ 2 ^ 31) (name : Bytes) {type : EntryType}
    (given : type ≠ .unset) :
    (name ∈ contents.map Prod.fst ∧ Settles (fun fuel => tables.fileAdd fuel name type) (tables, none)) ∨
    (name ∉ contents.map Prod.fst ∧ ∃ after place,
      Settles (fun fuel => tables.fileAdd fuel name type) (after, some place) ∧
        after.allfiles[place]? = some ⟨name, type, 0⟩ ∧ after.Good ((name, type) :: contents)) := by
  rcases good.search few name with
    ⟨known, place, desc, found, here, same⟩ | ⟨fresh, low, absent, inside, before, after⟩
  · obtain ⟨enough, run⟩ := found
    refine Or.inl ⟨known, enough, fun fuel least => ?_⟩
    have found : Wgtpkg.search tables.allfiles name fuel 0 tables.allfiles.length = some (.inl place) := run fuel least
    simp only [Tables.fileAdd, getFiledesc, found, Option.map_some, Option.bind_some, here]
    rw [if_neg (good.tidy.declared desc (List.mem_of_getElem? here))]
  · have room : tables.allfiles.length + 1 ≠ 2 ^ 32 := by
      rw [good.length_eq]
      omega
    have front : (tables.allfiles.take low).length = low := List.length_take_of_le inside
    have here (desc : FileDesc) : (tables.allfiles.take low ++ desc :: tables.allfiles.drop low)[low]? = some desc := by
      rw [List.getElem?_append_right (le_of_eq front), front, Nat.sub_self]
      rfl
    obtain ⟨enough, run⟩ := absent
    refine Or.inr ⟨fresh, _, low, ⟨enough, fun fuel least => ?_⟩, here ⟨name, type, 0⟩,
      good.insert before after given⟩
    have absent : Wgtpkg.search tables.allfiles name fuel 0 tables.allfiles.length = some (.inr low) := run fuel least
    simp only [Tables.fileAdd, getFiledesc, absent, Option.map_some, true_and, if_pos room, Option.bind_some, here,
      if_true, Option.getD_some, Fdb.modify_middle _ _ _ _ front]

theorem good_reset : fileReset.Good [] :=
  ⟨Fdb.Tidy.empty, List.Perm.refl _, List.Pairwise.nil, List.Perm.refl _⟩

/-- A call returns, and does to the tables what it is for. -/
theorem Good.call (good : tables.Good contents) (few : contents.length ≤ 2 ^ 31) (call : Call) :
    ∃ after result, Settles (fun fuel => call.run fuel tables) (after, result) ∧
      after.Good (call.meaning contents) := by
  have adds {type : EntryType} (given : type ≠ .unset) (name : Bytes) : ∃ after result,
      Settles (fun fuel => tables.fileAdd fuel name type) (after, result) ∧
        after.Good (contents.declare name type) := by
    rcases good.fileAdd few name given with ⟨known, refused⟩ | ⟨fresh, after, place, added, -, good'⟩
    · exact ⟨tables, none, refused, by rwa [Contents.declare_known known]⟩
    · exact ⟨after, some place, added, by rwa [Contents.declare_fresh fresh]⟩
  cases call with
  | reset => exact ⟨fileReset, none, Settles.known _, good_reset⟩
  | addFile name => exact adds (by decide) name
  | addDirectory name => exact adds (by decide) name
  | ofName name =>
    rcases good.fileOfName few name with ⟨-, place, desc, found, -⟩ | ⟨-, none⟩
    · exact ⟨tables, _, found, good⟩
    · exact ⟨tables, _, none, good⟩
  | createSignature number =>
    rcases good.fileOfName few (signatureFile number.toNat) with ⟨known, place, desc, found, -⟩ | ⟨-, none⟩
    · refine ⟨tables, some place, found.bind (Settles.known (tables, some place)), ?_⟩
      rw [Call.meaning, Contents.declare_known known]
      exact good
    · obtain ⟨after, result, added, good'⟩ := adds (show EntryType.file ≠ .unset by decide) (signatureFile number.toNat)
      exact ⟨after, result, none.bind added, good'⟩

/-- Any calls return, when there are few files before each. -/
theorem Good.calls (good : tables.Good contents) (calls : List Call) (few : ∀ front call rest,
    calls = front ++ call :: rest → (front.foldl Call.meaning contents).length ≤ 2 ^ 31) :
    ∃ after, Settles (fun fuel => runCalls fuel tables calls) after ∧
      after.Good (calls.foldl Call.meaning contents) := by
  induction calls generalizing tables contents with
  | nil => exact ⟨tables, Settles.known tables, good⟩
  | cons call rest ih =>
    obtain ⟨middle, result, first, good'⟩ := good.call (few [] call rest rfl) call
    have later (front : List Call) (call' : Call) (rest' : List Call) (split : rest = front ++ call' :: rest') :
        (front.foldl Call.meaning (call.meaning contents)).length ≤ 2 ^ 31 := by
      refine few (call :: front) call' rest' ?_
      rw [split, List.cons_append]
    obtain ⟨after, others, good''⟩ := ih good' later
    exact ⟨after, first.bind others, good''⟩

end Tables

/-- Up to 2^31 files at a time, any calls return. The files are in the order of their names, and are those that were
declared since the last reset; a search finds the ones that are there and no other, a name that is there is not
declared again, and the signatures are in the order of their numbers, and are the files that have one. -/
theorem tables_hold (calls : List Call) (few : ∀ front, front <+: calls → (declared front).length ≤ 2 ^ 31) :
    ∃ tables, Settles (fun fuel => runCalls fuel Tables.fileReset calls) tables ∧
      Ascending FileDesc.name tables.allfiles ∧
      (tables.allfiles.map fun desc => (desc.name, desc.type)).Perm (declared calls) ∧
      (∀ name ∈ (declared calls).map Prod.fst, (∃ place desc,
        Settles (fun fuel => tables.fileOfName fuel name) (tables, some place) ∧
          tables.allfiles[place]? = some desc ∧ desc.name = name) ∧
        Settles (fun fuel => tables.fileAddFile fuel name) (tables, none) ∧
        Settles (fun fuel => tables.fileAddDirectory fuel name) (tables, none)) ∧
      (∀ name, name ∉ (declared calls).map Prod.fst →
        Settles (fun fuel => tables.fileOfName fuel name) (tables, none)) ∧
      tables.allsignatures.Pairwise NumberLe ∧
      tables.allsignatures.Perm
        ((tables.allfiles.map FileDesc.name).filter fun name => whatSignature name ≠ 0) := by
  obtain ⟨tables, returns, good⟩ := Tables.good_reset.calls calls fun front call rest split =>
    few front (split ▸ List.prefix_append front (call :: rest))
  have now : (declared calls).length ≤ 2 ^ 31 := few calls (List.prefix_refl calls)
  refine ⟨tables, returns, good.tidy.ascending, good.files, fun name known => ⟨?_, ?_, ?_⟩, fun name fresh => ?_,
    good.ascending, good.signatures⟩
  · rcases good.fileOfName now name with ⟨-, found⟩ | ⟨fresh, -⟩
    · exact found
    · exact absurd known fresh
  · rcases good.fileAdd now name (show EntryType.file ≠ .unset by decide) with ⟨-, refused⟩ | ⟨fresh, -⟩
    · exact refused
    · exact absurd known fresh
  · rcases good.fileAdd now name (show EntryType.directory ≠ .unset by decide) with ⟨-, refused⟩ | ⟨fresh, -⟩
    · exact refused
    · exact absurd known fresh
  · rcases good.fileOfName now name with ⟨known, -⟩ | ⟨-, none⟩
    · exact absurd known fresh
    · exact none

theorem declare_length_le (contents : Contents) (name : Bytes) (type : EntryType) :
    (contents.declare name type).length ≤ contents.length + 1 := by
  unfold Contents.declare
  split
  · exact Nat.le_succ _
  · exact Nat.le_refl _

theorem meaning_length_le (calls : List Call) (contents : Contents) :
    (calls.foldl Call.meaning contents).length ≤ contents.length + calls.length := by
  induction calls generalizing contents with
  | nil => exact Nat.le_refl _
  | cons call rest ih =>
    have one : (call.meaning contents).length ≤ contents.length + 1 := by
      cases call with
      | reset => exact Nat.zero_le _
      | ofName name => exact Nat.le_succ _
      | _ => exact declare_length_le contents _ _
    have others := ih (call.meaning contents)
    rw [List.foldl_cons, List.length_cons]
    omega

def signedCalls : List Call :=
  [.addFile (ascii "b"), .addDirectory (ascii "a/"), .createSignature 12, .createSignature 0, .addFile (ascii "b")]

theorem tables_hold_signed : ∃ tables, Settles (fun fuel => runCalls fuel Tables.fileReset signedCalls) tables ∧
    Ascending FileDesc.name tables.allfiles ∧ tables.allsignatures.Pairwise NumberLe ∧
    Settles (fun fuel => tables.fileAddFile fuel (ascii "signature12.xml")) (tables, none) := by
  have few (front : List Call) (start : front <+: signedCalls) : (declared front).length ≤ 2 ^ 31 := by
    have bound := meaning_length_le front []
    have size : front.length ≤ 5 := start.length_le
    exact le_trans bound (by simp; omega)
  obtain ⟨tables, returns, ascending, -, present, -, numbers, -⟩ := tables_hold signedCalls few
  exact ⟨tables, returns, ascending, numbers, (present (ascii "signature12.xml") (by decide +kernel)).2.1⟩

/-- In an array of one more file, the search of the last one goes back to the start of the array each time that it
comes close to its end. -/
theorem search_lost {files : Fdb} (ascending : Ascending FileDesc.name files) (full : files.length = 2 ^ 31 + 1)
    {last : FileDesc} (here : files[2 ^ 31]? = some last) (fuel : Nat) {low : Nat} (inside : low ≤ 2 ^ 31) :
    search files last.name fuel low files.length = none := by
  induction fuel generalizing low with
  | zero => rfl
  | succ fuel ih =>
    have before : (low + files.length) % 2 ^ 32 / 2 < 2 ^ 31 := by omega
    have within : (low + files.length) % 2 ^ 32 / 2 < files.length := by omega
    obtain ⟨end', same⟩ := List.getElem?_eq_some_iff.mp here
    have less := List.pairwise_iff_getElem.mp ascending _ _ within end' before
    rw [same] at less
    have other : files[(low + files.length) % 2 ^ 32 / 2].name ≠ last.name := fun equal =>
      List.lt_irrefl _ (equal ▸ less)
    have order : ¬last.name < files[(low + files.length) % 2 ^ 32 / 2].name := fun more =>
      List.lt_irrefl _ (List.lt_trans less more)
    rw [search, if_pos (show low < files.length by omega)]
    simp only [List.getElem?_eq_getElem within, Option.bind_some, if_neg other, if_neg order]
    exact ih before

def numbered (count : Nat) : List Call := (List.range count).map fun index : Nat => .addFile (decimalText index)

theorem declared_numbered (count : Nat) :
    declared (numbered count) =
      ((List.range count).map fun index : Nat => (decimalText index, EntryType.file)).reverse := by
  induction count with
  | zero => rfl
  | succ count ih =>
    have more : numbered (count + 1) = numbered count ++ [.addFile (decimalText count)] := by
      rw [numbered, List.range_succ, List.map_append]
      rfl
    have fresh : decimalText count ∉ (declared (numbered count)).map Prod.fst := by
      rw [ih, List.map_reverse, List.mem_reverse, List.map_map, List.mem_map]
      rintro ⟨index, inside, same⟩
      have equal := Int.natCast_inj.mp (decimalText_injective same)
      exact absurd (List.mem_range.mp inside) (equal ▸ Nat.lt_irrefl count)
    rw [declared, more, List.foldl_append, ← declared, List.foldl_cons, List.foldl_nil, Call.meaning,
      Contents.declare_fresh fresh, ih, List.range_succ, List.map_append, List.reverse_append]
    rfl

/-- The last one of 2^31 + 1 files is not found: the search does not return. -/
theorem tables_lose : ¬∀ calls : List Call, ∃ tables,
    Settles (fun fuel => runCalls fuel Tables.fileReset calls) tables ∧ ∀ name ∈ (declared calls).map Prod.fst,
      ∃ place, Settles (fun fuel => tables.fileOfName fuel name) (tables, some place) := by
  intro holds
  generalize count : 2 ^ 31 + 1 = total
  obtain ⟨tables, returns, finds⟩ := holds (numbered total)
  have size : (numbered total).length = total := by rw [numbered, List.length_map, List.length_range]
  obtain ⟨tables', returns', good⟩ := Tables.good_reset.calls (numbered total) fun front call rest split => by
    have bound := meaning_length_le front []
    rw [split, List.length_append, List.length_cons] at size
    rw [List.length_nil] at bound
    omega
  obtain rfl := returns.unique returns'
  have full : tables.allfiles.length = 2 ^ 31 + 1 := by
    have length := good.length_eq
    rw [← declared, declared_numbered, List.length_reverse, List.length_map, List.length_range] at length
    rw [length, count]
  obtain ⟨last, here⟩ : ∃ last, tables.allfiles[2 ^ 31]? = some last :=
    ⟨_, List.getElem?_eq_getElem (show 2 ^ 31 < tables.allfiles.length by omega)⟩
  have known := good.mem_iff.mp (List.mem_map.mpr ⟨last, List.mem_of_getElem? here, rfl⟩)
  obtain ⟨place, enough, run⟩ := finds last.name known
  have found := run enough le_rfl
  simp only [Tables.fileOfName, Tables.getFiledesc, search_lost good.tidy.ascending full here enough (Nat.zero_le _),
    Option.map_none] at found
  cases found

end AppManager.Wgtpkg
