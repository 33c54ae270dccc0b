import AppManager.Lib.Lines

/-! The keys and the operations of the installer protocol. A line is a key, a space
and a value. -/

namespace AppManager.Afmpkg
open AppManager.Lib

abbrev space : Byte := ' '.toUInt8
abbrev newline : Byte := '\n'.toUInt8

def OPERATION_ADD : Bytes := ascii "ADD"
def OPERATION_REMOVE : Bytes := ascii "REMOVE"
def OPERATION_CHECK_ADD : Bytes := ascii "CHECK-ADD"
def OPERATION_CHECK_REMOVE : Bytes := ascii "CHECK-REMOVE"

/-- The keys of the lines of a request. -/
inductive Key where
  | BEGIN
  | COUNT
  | END
  | FILE
  | INDEX
  | PACKAGE
  | REDPAKID
  | ROOT
  | TRANSID
  | STATUS
  deriving DecidableEq, Repr

def Key.text : Key → Bytes
  | .BEGIN => ascii "BEGIN"
  | .COUNT => ascii "COUNT"
  | .END => ascii "END"
  | .FILE => ascii "FILE"
  | .INDEX => ascii "INDEX"
  | .PACKAGE => ascii "PACKAGE"
  | .REDPAKID => ascii "REDPAKID"
  | .ROOT => ascii "ROOT"
  | .TRANSID => ascii "TRANSID"
  | .STATUS => ascii "STATUS"

def KEY_OK : Bytes := ascii "OK"
def KEY_ERROR : Bytes := ascii "ERROR"

/-- In the order in which `afmpkg_request_add_line` tries them. -/
def keys : List Key :=
  [.BEGIN, .COUNT, .END, .FILE, .INDEX, .PACKAGE, .REDPAKID, .ROOT, .TRANSID, .STATUS]

def keyLine (key : Key) (value : Bytes) : Bytes := key.text ++ space :: value

/-- The macro `IF(key)`. -/
def hasKey (line : Bytes) (key : Key) : Bool :=
  key.text.length + 1 ≤ line.length ∧ line.take key.text.length = key.text ∧
    (line)[key.text.length]? = some space

def lineKey (line : Bytes) : Option (Key × Bytes) :=
  (keys.find? (hasKey line)).map fun key => (key, line.drop (key.text.length + 1))

theorem hasKey_iff (line : Bytes) (key : Key) :
    hasKey line key = true ↔ ∃ value, line = keyLine key value := by
  unfold hasKey keyLine
  rw [decide_eq_true_iff]
  constructor
  · intro ⟨_, start, mark⟩
    refine ⟨line.drop (key.text.length + 1), ?_⟩
    obtain ⟨inside, byte⟩ := List.getElem?_eq_some_iff.mp mark
    calc line = line.take key.text.length ++ line.drop key.text.length :=
          (List.take_append_drop _ _).symm
      _ = key.text ++ space :: line.drop (key.text.length + 1) := by
          rw [start, List.drop_eq_getElem_cons inside, byte]
  · intro ⟨value, same⟩
    subst same
    simp

theorem space_not_mem_key (key : Key) : space ∉ key.text := by
  cases key <;> decide

theorem key_text_injective (first second : Key) (same : first.text = second.text) : first = second := by
  cases first <;> cases second <;> first | rfl | exact absurd same (by decide)

theorem keyLine_injective {first second : Key} {value value' : Bytes}
    (same : keyLine first value = keyLine second value') : first = second ∧ value = value' := by
  have keys := congrArg (List.takeWhile (· != space)) same
  unfold keyLine at keys same
  rw [takeWhile_stop _ _ _ (space_not_mem_key first), takeWhile_stop _ _ _ (space_not_mem_key second)]
    at keys
  have equal := key_text_injective first second keys
  subst equal
  refine ⟨rfl, ?_⟩
  simpa using same

theorem lineKey_eq_some (line : Bytes) (key : Key) (value : Bytes) :
    lineKey line = some (key, value) ↔ line = keyLine key value := by
  unfold lineKey
  rw [Option.map_eq_some_iff]
  constructor
  · intro ⟨found, search, same⟩
    obtain ⟨rfl, rest⟩ := Prod.mk.inj same
    obtain ⟨value', equal⟩ := (hasKey_iff line found).mp (List.find?_some search)
    rw [← rest, equal]
    simp [keyLine]
  · intro same
    have known : hasKey line key = true := (hasKey_iff line key).mpr ⟨value, same⟩
    cases search : keys.find? (hasKey line) with
    | none =>
      rw [List.find?_eq_none] at search
      exact absurd known (search key (by cases key <;> decide))
    | some found =>
      obtain ⟨value', equal⟩ := (hasKey_iff line found).mp (List.find?_some search)
      obtain ⟨rfl, rfl⟩ := keyLine_injective (equal.symm.trans same)
      refine ⟨found, rfl, ?_⟩
      rw [equal]
      simp [keyLine]

end AppManager.Afmpkg
