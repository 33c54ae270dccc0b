import AppManager.Lib.Dialog
import AppManager.Lib.Libc

/-! The check of the authorizations of a request. Permissions are asked one after the
other, and the answer of each resumes the check where it stopped. -/

namespace AppManager.Binding
open AppManager.Lib AppManager.Lib.Libc

def E2BIG : Int := 7

def CKAUTH_STACK_DEPTH : Nat := 8

/-- The authorizations that the check tells apart. -/
inductive AfbAuth where
  | no
  | token
  | loa
  | permission (text : Bytes)
  | or (first next : AfbAuth)
  | and (first next : AfbAuth)
  | not (first : AfbAuth)
  | yes
  | unknown (type : Nat)

/-- What a verb asks of the world: memory, permissions, the path that systemd gives to a
unit or `errno`, and the process of such a path with `errno` after it. -/
inductive Question where
  | allocate
  | permission (text : Bytes)
  | unitDpathByName (isuser : Bool) (name : Bytes)
  | unitPidOfDpath (isuser : Bool) (dpath : Bytes)

abbrev Answer : Question → Type
  | .allocate => Bool
  | .permission _ => Int
  | .unitDpathByName _ _ => Except Int Bytes
  | .unitPidOfDpath _ _ => Int × Int

section
variable {Act : Type}

def AfbAuth.size : AfbAuth → Nat
  | .or first next => first.size + next.size + 1
  | .and first next => first.size + next.size + 1
  | .not first => first.size + 1
  | _ => 1

/-- What is left to do for an authorization of the stack. -/
def AfbAuth.pending : AfbAuth → Nat
  | .or _ next => 2 * next.size + 1
  | .and _ next => 2 * next.size + 1
  | _ => 1

def stackPending (stack : List AfbAuth) : Nat := (stack.map AfbAuth.pending).sum

theorem pending_pos (auth : AfbAuth) : 0 < auth.pending := by
  cases auth <;> simp [AfbAuth.pending]

theorem pending_size (auth : AfbAuth) : auth.pending < 2 * auth.size := by
  cases auth <;> simp only [AfbAuth.pending, AfbAuth.size] <;> omega

theorem stackPending_cons (auth : AfbAuth) (stack : List AfbAuth) :
    stackPending (auth :: stack) = auth.pending + stackPending stack := by
  rw [stackPending, List.map_cons, List.sum_cons]
  rfl

mutual

def ckaPop (callback : Int → Dialog Question Answer Act) (stack : List AfbAuth) (status : Int) :
    Dialog Question Answer Act :=
  match stack with
  | [] => callback status
  | .or _ next :: stack => if status ≤ 0 then ckaPush callback next stack else ckaPop callback stack status
  | .and _ next :: stack => if 0 < status then ckaPush callback next stack else ckaPop callback stack status
  | .not _ :: stack => ckaPop callback stack (if status ≤ 0 then 1 else 0)
  | _ :: stack => ckaPop callback stack status
termination_by stackPending stack
decreasing_by
  all_goals
    rw [stackPending_cons]
    simp only [AfbAuth.pending]
    first | omega | exact Nat.lt_add_of_pos_left (pending_pos _)

def ckaPush (callback : Int → Dialog Question Answer Act) (auth : AfbAuth) (stack : List AfbAuth) :
    Dialog Question Answer Act :=
  if CKAUTH_STACK_DEPTH ≤ stack.length then callback (-E2BIG)
  else match auth with
    | .permission text => .ask (.permission text) fun status : Int => ckaPop callback (.permission text :: stack) status
    | .or first next => ckaPush callback first (.or first next :: stack)
    | .and first next => ckaPush callback first (.and first next :: stack)
    | .not first => ckaPush callback first (.not first :: stack)
    | .yes => ckaPop callback (.yes :: stack) 1
    | auth => ckaPop callback (auth :: stack) 0
termination_by 2 * auth.size + stackPending stack
decreasing_by
  all_goals
    rw [stackPending_cons]
    simp only [AfbAuth.pending, AfbAuth.size]
    first | omega | exact Nat.add_lt_add_right (pending_size _) _

end

def authCheck (auth : AfbAuth) (callback : Int → Dialog Question Answer Act) : Dialog Question Answer Act :=
  .ask .allocate fun given : Bool => if given then ckaPush callback auth [] else callback (-ENOMEM)

theorem ckaPush_permission (callback : Int → Dialog Question Answer Act) (text : Bytes) (stack : List AfbAuth)
    (room : stack.length < CKAUTH_STACK_DEPTH) :
    ckaPush callback (.permission text) stack =
      .ask (.permission text) fun status : Int => ckaPop callback stack status := by
  rw [ckaPush, if_neg (not_le.mpr room)]
  congr 1
  funext status
  rw [ckaPop]
  · exact fun first next same => (by cases same)
  · exact fun first next same => (by cases same)
  · exact fun first same => (by cases same)

end

end AppManager.Binding
