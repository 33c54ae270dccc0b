import AppManager.Afmpkg.Reply
import Mathlib.Data.List.DropRight

/-! The reply as the client reads it: the line that the server sends, received at once,
gives back the verdict and the message. -/

namespace AppManager.Afmpkg
open AppManager.Lib AppManager.Lib.Libc

def INPUT_SIZE : Nat := 1000

/-- The buffer of the client, with whatever it holds before the reply. -/
abbrev InputBuffer := { cells : Bytes // cells.length = INPUT_SIZE }

/-- What `recv` gives: the number of its error, or bytes that leave room for a NUL. -/
abbrev Received := Except Int { bytes : Bytes // bytes.length < INPUT_SIZE }

/-- What follows the tag at `sz`: nothing, or spaces and then the argument. -/
def replyInfo (inputbuf : Bytes) (rc : Int) (sz : Nat) : Int × Option Bytes :=
  if inputbuf.getD sz 0 = 0 then (rc, none)
  else if inputbuf.getD sz 0 ≠ space then (-EBADMSG, none)
  else
    let info := cstr ((inputbuf.drop (sz + 1)).dropWhile (· == space))
    (rc, if info = [] then none else some info)

def recvFramework (inputbuf : InputBuffer) (received : Received) (wanted : Bool) : Int × Option Bytes :=
  match received with
  | .error errno => (-errno, none)
  | .ok bytes =>
    let sz := (bytes.1.rdropWhile (· == newline)).length
    let inputbuf := (store inputbuf.1 0 bytes.1).set sz 0
    let result :=
      if inputbuf.take KEY_OK.length = KEY_OK then replyInfo inputbuf 1 KEY_OK.length
      else if inputbuf.take KEY_ERROR.length = KEY_ERROR then replyInfo inputbuf 0 KEY_ERROR.length
      else (-EBADMSG, none)
    (result.1, if wanted then result.2 else none)

def Request.message (req : Request) : Bytes := cstr (req.msg.getD [])

def verdict (req : Request) : Int := if 0 ≤ req.scode then 1 else 0

def IsTag (tag : Bytes) (rc : Int) : Prop := (tag = KEY_OK ∧ rc = 1) ∨ (tag = KEY_ERROR ∧ rc = 0)

def messagePart (text : Bytes) : Bytes := if text = [] then [] else space :: text

theorem replyText_eq (req : Request) : ∃ tag, IsTag tag (verdict req) ∧
    replyText req = tag ++ messagePart req.message ++ [newline] := by
  refine ⟨if 0 ≤ req.scode then KEY_OK else KEY_ERROR, ?_, ?_⟩
  · unfold verdict
    split
    · exact Or.inl ⟨rfl, rfl⟩
    · exact Or.inr ⟨rfl, rfl⟩
  · unfold replyText Request.message messagePart
    cases req.msg <;> rfl

theorem replyInfo_line (tag text rest : Bytes) (rc : Int) (clean : (0 : Byte) ∉ text)
    (start : text.head? ≠ some space) :
    replyInfo (tag ++ messagePart text ++ 0 :: rest) rc tag.length = (rc, if text = [] then none else some text) := by
  have cell (after : Bytes) (byte : Byte) : (tag ++ byte :: after).getD tag.length 0 = byte := by
    rw [List.getD_eq_getElem?_getD, List.getElem?_append_right le_rfl, Nat.sub_self]
    rfl
  unfold replyInfo messagePart
  cases text with
  | nil => rw [if_pos rfl, List.append_nil, cell, if_pos rfl, if_pos rfl]
  | cons first others =>
    have skipped : ((tag ++ space :: (first :: others ++ 0 :: rest)).drop (tag.length + 1)).dropWhile (· == space) =
        first :: others ++ 0 :: rest := by
      rw [← List.drop_drop, List.drop_left, List.drop_one, List.tail_cons, List.cons_append, List.dropWhile_cons_of_neg]
      simpa using fun same => start (congrArg some same)
    rw [if_neg (List.cons_ne_nil _ _), List.append_assoc, List.cons_append, cell, if_neg (by decide),
      if_neg (not_not.mpr rfl), skipped, cstr_append_nul, cstr_of_no_nul _ clean]

theorem recvFramework_line (inputbuf : InputBuffer) (tag text : Bytes) (rc : Int) (isTag : IsTag tag rc)
    (clean : (0 : Byte) ∉ text) (single : newline ∉ text) (start : text.head? ≠ some space)
    (received : { bytes : Bytes // bytes.length < INPUT_SIZE })
    (line : received.1 = tag ++ messagePart text ++ [newline]) :
    recvFramework inputbuf (.ok received) true = (rc, if text = [] then none else some text) := by
  have plain : newline ∉ tag ++ messagePart text := by
    intro member
    rcases List.mem_append.mp member with inTag | inMessage
    · rcases isTag with ⟨rfl, -⟩ | ⟨rfl, -⟩
      · exact absurd inTag (by decide)
      · exact absurd inTag (by decide)
    · unfold messagePart at inMessage
      split at inMessage
      · cases inMessage
      · rcases List.mem_cons.mp inMessage with same | inText
        · exact absurd same (by decide)
        · exact single inText
  have trimmed : received.1.rdropWhile (· == newline) = tag ++ messagePart text := by
    rw [line, List.rdropWhile_concat_pos _ _ _ (by decide), List.rdropWhile_eq_self_iff]
    intro some isNewline
    exact plain (eq_of_beq isNewline ▸ List.getLast_mem some)
  have stored : (store inputbuf.1 0 received.1).set (tag ++ messagePart text).length 0 =
      tag ++ messagePart text ++ 0 :: inputbuf.1.drop received.1.length := by
    rw [store_zero, line, List.append_assoc _ [newline], List.set_append_right _ _ le_rfl, Nat.sub_self]
    rfl
  unfold recvFramework
  simp only [trimmed, stored]
  rcases isTag with ⟨rfl, rfl⟩ | ⟨rfl, rfl⟩
  · rw [List.append_assoc KEY_OK, List.take_left, if_pos rfl, ← List.append_assoc,
      replyInfo_line KEY_OK text _ 1 clean start]
    rfl
  · have other : (KEY_ERROR ++ messagePart text ++ 0 :: inputbuf.1.drop received.1.length).take KEY_OK.length ≠
        KEY_OK := by
      rw [List.append_assoc, List.take_append_of_le_length (by decide)]
      decide
    rw [if_neg other, List.append_assoc KEY_ERROR, List.take_left, if_pos rfl, ← List.append_assoc,
      replyInfo_line KEY_ERROR text _ 0 clean start]
    rfl

theorem reply_fits (req : Request) (replyBuffer : ReplyBuffer) : (reply req replyBuffer).length < INPUT_SIZE := by
  rw [reply_eq]
  unfold REPLY_SIZE INPUT_SIZE
  split
  · rw [List.length_append, List.length_take, List.length_singleton]
    omega
  · omega

/-- The reply is read as it was meant; of a message that is too long, the first bytes are read. -/
theorem reply_received (req : Request) (replyBuffer : ReplyBuffer) (inputbuf : InputBuffer)
    (single : newline ∉ req.message) (start : req.message.head? ≠ some space) :
    ((replyText req).length < REPLY_SIZE →
      recvFramework inputbuf (.ok ⟨reply req replyBuffer, reply_fits req replyBuffer⟩) true =
        (verdict req, if req.message = [] then none else some req.message)) ∧
    (REPLY_SIZE ≤ (replyText req).length → ∃ part, part <+: req.message ∧
      recvFramework inputbuf (.ok ⟨reply req replyBuffer, reply_fits req replyBuffer⟩) true =
        (verdict req, some part)) := by
  obtain ⟨tag, isTag, whole⟩ := replyText_eq req
  have clean : (0 : Byte) ∉ req.message := cstr_clean _
  have sent := reply_eq req replyBuffer
  constructor
  · intro short
    rw [if_neg (not_le.mpr short), whole] at sent
    exact recvFramework_line inputbuf tag req.message _ isTag clean single start ⟨_, reply_fits req replyBuffer⟩ sent
  · intro long
    have tagShort : tag.length ≤ 5 := by
      rcases isTag with ⟨rfl, -⟩ | ⟨rfl, -⟩ <;> decide
    have some : req.message ≠ [] := by
      intro empty
      rw [whole, empty, messagePart, if_pos rfl, List.append_nil, List.length_append, List.length_singleton] at long
      unfold REPLY_SIZE at long
      omega
    have size : 510 - tag.length ≤ req.message.length := by
      rw [whole, messagePart, if_neg some, List.length_append, List.length_append, List.length_cons,
        List.length_singleton] at long
      unfold REPLY_SIZE at long
      omega
    have partSome : req.message.take (510 - tag.length) ≠ [] := by
      rw [← List.length_pos_iff, List.length_take]
      omega
    have cut : (replyText req).take (REPLY_SIZE - 1) =
        tag ++ messagePart (req.message.take (510 - tag.length)) := by
      have room : REPLY_SIZE - 1 = tag.length + (510 - tag.length + 1) := by
        unfold REPLY_SIZE
        omega
      rw [whole, messagePart, if_neg some, messagePart, if_neg partSome, List.append_assoc, room,
        List.take_length_add_append, List.cons_append, List.take_succ_cons, List.take_append_of_le_length size]
    rw [if_pos long, cut] at sent
    refine ⟨req.message.take (510 - tag.length), List.take_prefix _ _, ?_⟩
    have head : (req.message.take (510 - tag.length)).head? = req.message.head? := by
      rw [List.head?_take, if_neg (by omega)]
    rw [recvFramework_line inputbuf tag _ _ isTag (fun member => clean (List.mem_of_mem_take member))
      (fun member => single (List.mem_of_mem_take member)) (head ▸ start) ⟨_, reply_fits req replyBuffer⟩ sent,
      if_neg partSome]

def zeroInput : InputBuffer := ⟨List.replicate INPUT_SIZE 0, List.length_replicate⟩

def failedRequest : Request := (afmpkgRequestError afmpkgRequestInit.2 (-EINVAL) (ascii "can't uninstall")).2

/-- The client gets the error of a removal. -/
theorem reply_received_error :
    recvFramework zeroInput (.ok ⟨reply failedRequest zeroReply, reply_fits failedRequest zeroReply⟩) true =
      (0, some (ascii "can't uninstall")) :=
  (reply_received failedRequest zeroReply zeroInput (by decide) (by decide)).1 (by decide)

end AppManager.Afmpkg
