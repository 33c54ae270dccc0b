import AppManager.Lib.Tape

/-! Fields of a text that are decoded in place, one after the other. A field ends at some
byte, and pairs of bytes stand for other ones. -/

namespace AppManager.Lib

/-- The byte that ends a field, and what two bytes stand for where the first one is not taken as it is. -/
structure Escapes where
  stop : Byte
  pair : Byte → Byte → Option Bytes
  stop_clean : stop ≠ 0
  pair_clean : ∀ byte ahead bytes, pair byte ahead = some bytes → ahead ≠ 0 ∧ (0 : Byte) ∉ bytes
  pair_short : ∀ byte ahead bytes, pair byte ahead = some bytes → bytes.length ≤ 2

def StringAt (cells : Bytes) (place : Nat) (text : Bytes) : Prop :=
  (0 : Byte) ∉ text ∧ ∃ after, cells.drop place = text ++ 0 :: after

theorem StringAt.read {cells text : Bytes} {place : Nat} (stands : StringAt cells place text) :
    cstr (cells.drop place) = text := by
  obtain ⟨clean, after, same⟩ := stands
  rw [same, cstr_terminated clean]

theorem StringAt.peek {cells text : Bytes} {place : Nat} (stands : StringAt cells place text) :
    cells[place]? = some (text.head?.getD 0) := by
  obtain ⟨-, after, same⟩ := stands
  have head : cells[place]? = (cells.drop place).head? := by rw [List.head?_drop]
  rw [head, same]
  cases text <;> rfl

theorem StringAt.tail {cells rest : Bytes} {place : Nat} {byte : Byte} (stands : StringAt cells place (byte :: rest)) :
    StringAt cells (place + 1) rest := by
  obtain ⟨clean, after, same⟩ := stands
  refine ⟨fun inside => clean (List.mem_cons_of_mem _ inside), after, ?_⟩
  rw [← List.drop_drop, same]
  rfl

/-- A byte, then the end. -/
theorem StringAt.single {cells text : Bytes} {place : Nat} {byte : Byte} (stands : StringAt cells place text)
    (some : byte ≠ 0) : cells[place]? = .some byte ∧ cells[place + 1]? = .some 0 ↔ text = [byte] := by
  rw [stands.peek]
  cases text with
  | nil => exact iff_of_false (fun both => some (Option.some.inj both.1).symm) (by simp)
  | cons first rest =>
    rw [stands.tail.peek, List.head?_cons, Option.getD_some, Option.some.injEq, Option.some.injEq, List.cons.injEq]
    apply and_congr_right
    rintro -
    cases rest with
    | nil => exact iff_of_true rfl rfl
    | cons next rest =>
      refine iff_of_false (fun zero => stands.1 ?_) (by simp)
      rw [List.head?_cons, Option.getD_some] at zero
      rw [zero]
      exact List.mem_cons_of_mem _ List.mem_cons_self

theorem StringAt.skip {cells text : Bytes} {place : Nat} {byte : Byte} (stands : StringAt cells place text)
    (some : byte ≠ 0) : ∃ here, cells[place]? = .some here ∧ decide (here = byte) = decide (text.head? = .some byte) ∧
      StringAt cells (if decide (text.head? = .some byte) then place + 1 else place)
        (if decide (text.head? = .some byte) then text.tail else text) := by
  refine ⟨_, stands.peek, ?_⟩
  cases text with
  | nil => exact ⟨decide_eq_false (Ne.symm some), stands⟩
  | cons first rest =>
    by_cases same : first = byte
    · rw [same] at stands ⊢
      rw [List.head?_cons, Option.getD_some, decide_eq_true rfl, decide_eq_true rfl]
      exact ⟨rfl, stands.tail⟩
    · have differs : (first :: rest).head? ≠ .some byte := fun equal => same (Option.some.inj equal)
      rw [decide_eq_false differs]
      exact ⟨decide_eq_false same, stands⟩

theorem stringAt_append (before after text : Bytes) (clean : (0 : Byte) ∉ text) {place : Nat}
    (here : before.length = place) : StringAt (before ++ (text ++ 0 :: after)) place text :=
  ⟨clean, after, by rw [← here, List.drop_left]⟩

theorem StringAt.split {cells text : Bytes} {place : Nat} (stands : StringAt cells place text) :
    ∃ before after, cells = before ++ (text ++ 0 :: after) ∧ before.length = place := by
  obtain ⟨-, after, same⟩ := stands
  refine ⟨cells.take place, after, by rw [← same, List.take_append_drop], ?_⟩
  have longer : 0 < (cells.drop place).length := by
    rw [same, List.length_append, List.length_cons]
    omega
  rw [List.length_drop] at longer
  exact List.length_take_of_le (by omega)

/-- The bytes from some place on are as they were. -/
def Kept (cells cells' : Bytes) (limit : Nat) : Prop := cells'.drop limit = cells.drop limit

theorem Kept.later {cells cells' : Bytes} {limit place : Nat} (kept : Kept cells cells' limit) (after : limit ≤ place) :
    Kept cells cells' place := by
  obtain ⟨more, rfl⟩ := Nat.exists_eq_add_of_le after
  unfold Kept
  rw [← List.drop_drop, kept, List.drop_drop]

theorem Kept.trans {cells cells' cells'' : Bytes} {limit : Nat} (first : Kept cells cells' limit)
    (second : Kept cells' cells'' limit) : Kept cells cells'' limit := Eq.trans second first

theorem Kept.string {cells cells' text : Bytes} {limit place : Nat} (kept : Kept cells cells' limit)
    (after : limit ≤ place) (stands : StringAt cells place text) : StringAt cells' place text := by
  obtain ⟨clean, unread, same⟩ := stands
  exact ⟨clean, unread, Eq.trans (kept.later after) same⟩

namespace Escapes
variable (escapes : Escapes)

/-- The first field of a text, decoded, and what follows the byte that ends it. -/
def split : Bytes → Bytes × Option Bytes
  | [] => ([], none)
  | [byte] => if byte = escapes.stop then ([], some []) else ([byte], none)
  | byte :: ahead :: rest =>
    if byte = escapes.stop then ([], some (ahead :: rest))
    else match escapes.pair byte ahead with
      | some bytes => (bytes ++ (split rest).1, (split rest).2)
      | none => (byte :: (split (ahead :: rest)).1, (split (ahead :: rest)).2)

def decodeLoop : Nat → Byte → Tape → Option (Byte × Tape)
  | 0, _, _ => none
  | fuel + 1, c, tape =>
    if c = 0 ∨ c = escapes.stop then some (c, tape)
    else tape.cells[tape.read]?.bind fun ahead =>
      match escapes.pair c ahead with
      | some bytes => tape.next fun _ tape => (bytes.foldlM Tape.put tape).bind fun tape => tape.next (decodeLoop fuel)
      | none => (tape.put c).bind fun tape => tape.next (decodeLoop fuel)

/-- The byte on which the loop stops, the place after it, and the memory with the field ended. -/
def decodeInPlace (cells : Bytes) (start : Nat) : Option (Byte × Nat × Bytes) :=
  ((⟨cells, start, start⟩ : Tape).next (escapes.decodeLoop (cells.length + 1))).bind fun (c, tape) =>
    (tape.close 0).map fun (_, cells) => (c, tape.read, cells)

theorem split_stop (rest : Bytes) : escapes.split (escapes.stop :: rest) = ([], some rest) := by
  cases rest <;> rw [split, if_pos rfl]

theorem split_plain {byte : Byte} (rest : Bytes) (other : byte ≠ escapes.stop)
    (plain : ∀ ahead, escapes.pair byte ahead = none) :
    escapes.split (byte :: rest) = (byte :: (escapes.split rest).1, (escapes.split rest).2) := by
  cases rest with
  | nil => exact if_neg other
  | cons ahead rest => rw [split, if_neg other, plain]

theorem split_pair {byte ahead : Byte} {bytes : Bytes} (rest : Bytes) (other : byte ≠ escapes.stop)
    (escaped : escapes.pair byte ahead = some bytes) :
    escapes.split (byte :: ahead :: rest) = (bytes ++ (escapes.split rest).1, (escapes.split rest).2) := by
  rw [split, if_neg other, escaped]

theorem split_shorter {text rest : Bytes} (more : (escapes.split text).2 = some rest) : rest.length < text.length := by
  fun_induction escapes.split text with
  | case1 => cases more
  | case2 => cases more; exact Nat.one_pos
  | case3 => cases more
  | case4 ahead rest => cases more; exact Nat.lt_succ_self _
  | case5 byte ahead later other bytes paired ih => exact (ih more).trans (by simp only [List.length_cons]; omega)
  | case6 byte ahead later other plain ih => exact (ih more).trans (Nat.lt_succ_self _)

/-- The fields of a text, decoded. What ends the last one may be missing, then it is not empty. -/
def fields (text : Bytes) : List Bytes :=
  if text = [] then []
  else match _more : (escapes.split text).2 with
    | none => [(escapes.split text).1]
    | some rest => (escapes.split text).1 :: fields rest
termination_by text.length
decreasing_by exact escapes.split_shorter _more

theorem fields_nil : escapes.fields [] = [] := by rw [fields, if_pos rfl]

theorem fields_last {text : Bytes} (some : text ≠ []) (last : (escapes.split text).2 = none) :
    escapes.fields text = [(escapes.split text).1] := by
  rw [fields, if_neg some]
  split
  · rfl
  · next more => cases last.symm.trans more

theorem fields_more {text rest : Bytes} (some : text ≠ []) (more : (escapes.split text).2 = .some rest) :
    escapes.fields text = (escapes.split text).1 :: escapes.fields rest := by
  rw [fields, if_neg some]
  split
  · next last => cases more.symm.trans last
  · next other => rw [Option.some.inj (more.symm.trans other)]

theorem rest_shorter {text : Bytes} (some : text ≠ []) : ((escapes.split text).2.getD []).length < text.length := by
  cases more : (escapes.split text).2 with
  | none => exact List.length_pos_iff.mpr some
  | some rest => exact escapes.split_shorter more

theorem fields_eq {text : Bytes} (some : text ≠ []) :
    escapes.fields text = (escapes.split text).1 :: escapes.fields ((escapes.split text).2.getD []) := by
  cases ended : (escapes.split text).2 with
  | none => rw [escapes.fields_last some ended, Option.getD_none, fields_nil]
  | some rest => rw [escapes.fields_more some ended, Option.getD_some]

/-- A text that stands for another one, whatever follows it. -/
def Decodes (written text : Bytes) : Prop :=
  ∀ rest, escapes.split (written ++ rest) = (text ++ (escapes.split rest).1, (escapes.split rest).2)

variable {escapes}

theorem Decodes.append {first second text text' : Bytes} (one : escapes.Decodes first text)
    (other : escapes.Decodes second text') : escapes.Decodes (first ++ second) (text ++ text') := by
  intro rest
  rw [List.append_assoc, one, other, List.append_assoc]

theorem Decodes.flatMap {write text : Byte → Bytes} (each : ∀ byte, escapes.Decodes (write byte) (text byte))
    (bytes : Bytes) : escapes.Decodes (bytes.flatMap write) (bytes.flatMap text) := by
  induction bytes with
  | nil => exact fun rest => rfl
  | cons byte rest ih =>
    rw [List.flatMap_cons, List.flatMap_cons]
    exact (each byte).append ih

theorem Decodes.plain {byte : Byte} (other : byte ≠ escapes.stop) (plain : ∀ ahead, escapes.pair byte ahead = none) :
    escapes.Decodes [byte] [byte] := fun rest => escapes.split_plain rest other plain

theorem Decodes.pair {byte ahead : Byte} {bytes : Bytes} (other : byte ≠ escapes.stop)
    (escaped : escapes.pair byte ahead = some bytes) : escapes.Decodes [byte, ahead] bytes :=
  fun rest => escapes.split_pair rest other escaped

/-- A byte that stands for itself before the next one. -/
theorem Decodes.apart {byte ahead : Byte} {text : Bytes} (other : byte ≠ escapes.stop)
    (plain : escapes.pair byte ahead = none) (next : escapes.Decodes [ahead] text) :
    escapes.Decodes [byte, ahead] (byte :: text) := by
  intro rest
  have later := next rest
  rw [List.singleton_append] at later
  rw [List.cons_append, List.singleton_append, split, if_neg other, plain, later]
  rfl

theorem Decodes.join {apart : Byte} {write text : Bytes → Bytes} (between : escapes.Decodes [apart] [apart])
    (each : ∀ bytes, escapes.Decodes (write bytes) (text bytes)) (texts : List Bytes) :
    escapes.Decodes ([apart].intercalate (texts.map write)) ([apart].intercalate (texts.map text)) := by
  induction texts with
  | nil => exact fun rest => rfl
  | cons first later ih =>
    cases later with
    | nil => simpa using each first
    | cons next later =>
      have whole (part : Bytes → Bytes) : [apart].intercalate ((first :: next :: later).map part) =
          part first ++ ([apart] ++ [apart].intercalate ((next :: later).map part)) := by
        simp
      rw [whole write, whole text]
      exact (each first).append (between.append ih)

theorem Decodes.split_all {written text : Bytes} (decodes : escapes.Decodes written text) :
    escapes.split written = (text, none) := by
  have whole := decodes []
  rwa [List.append_nil, split, List.append_nil] at whole

theorem Decodes.split_stopped {written text : Bytes} (decodes : escapes.Decodes written text) (rest : Bytes) :
    escapes.split (written ++ escapes.stop :: rest) = (text, some rest) := by
  rw [decodes, split_stop, List.append_nil]

theorem Decodes.ne_nil {written text : Bytes} (decodes : escapes.Decodes written text) (some : text ≠ []) :
    written ≠ [] := by
  rintro rfl
  have none := decodes.split_all
  rw [split, Prod.mk.injEq] at none
  exact some none.1.symm

/-- Texts that are written one after the other, with what ends a field between them, are the fields. -/
theorem fields_join {write : Bytes → Bytes} (decodes : ∀ text, escapes.Decodes (write text) text)
    (texts : List Bytes) (last : ∀ text ∈ texts.getLast?, text ≠ []) :
    escapes.fields ([escapes.stop].intercalate (texts.map write)) = texts := by
  induction texts with
  | nil => exact escapes.fields_nil
  | cons text later ih =>
    cases later with
    | nil =>
      have whole : [escapes.stop].intercalate ([text].map write) = write text := by simp
      have single := (decodes text).split_all
      rw [whole, escapes.fields_last ((decodes text).ne_nil (last text rfl)) (by rw [single]), single]
    | cons next later =>
      have whole : [escapes.stop].intercalate ((text :: next :: later).map write) =
          write text ++ escapes.stop :: [escapes.stop].intercalate ((next :: later).map write) := by
        simp
      have stopped := (decodes text).split_stopped ([escapes.stop].intercalate ((next :: later).map write))
      rw [whole, escapes.fields_more (by simp) (congrArg Prod.snd stopped), stopped, ih last]

variable (escapes)

theorem putAll_parts (out gap rest bytes : Bytes) (room : bytes.length ≤ gap.length) :
    ∃ gap', bytes.length + gap'.length = gap.length ∧
      bytes.foldlM Tape.put (Tape.parts out gap rest) = some (Tape.parts (out ++ bytes) gap' rest) := by
  induction bytes generalizing out gap with
  | nil => exact ⟨gap, Nat.zero_add _, by rw [List.append_nil]; rfl⟩
  | cons byte bytes ih =>
    cases gap with
    | nil => exact absurd room (by simp)
    | cons old gap =>
      obtain ⟨gap', size, run⟩ := ih (out ++ [byte]) gap (by simpa using room)
      refine ⟨gap', by rw [List.length_cons, List.length_cons, Nat.succ_add, size], ?_⟩
      rw [List.append_assoc, List.singleton_append] at run
      rw [List.foldlM_cons, Tape.put_parts]
      exact run

theorem decodeLoop_spec (fuel : Nat) (out gap text after : Bytes) (enough : text.length < fuel)
    (clean : (0 : Byte) ∉ text) :
    ∃ read, (escapes.split text).1.length + read.length + (escapes.split text).2.elim 0 (·.length + 1) =
        gap.length + text.length ∧
      (Tape.parts out gap (text ++ 0 :: after)).next (escapes.decodeLoop fuel) = some
      ((escapes.split text).2.elim (0, Tape.parts (out ++ (escapes.split text).1) (read ++ [0]) after) fun rest =>
        (escapes.stop, Tape.parts (out ++ (escapes.split text).1) (read ++ [escapes.stop]) (rest ++ 0 :: after))) := by
  induction fuel generalizing out gap text with
  | zero => exact absurd enough (Nat.not_lt_zero _)
  | succ fuel ih =>
    cases text with
    | nil =>
      refine ⟨gap, Nat.zero_add _, ?_⟩
      rw [List.nil_append, Tape.next_parts, decodeLoop, if_pos (Or.inl rfl), split, List.append_nil]
      rfl
    | cons c rest =>
      obtain ⟨differs, clean'⟩ := not_or.mp (List.mem_cons.not.mp clean)
      have shorter : rest.length < fuel := by
        rw [List.length_cons] at enough
        omega
      rw [List.cons_append, Tape.next_parts, decodeLoop]
      by_cases stops : c = escapes.stop
      · rw [if_pos (Or.inr stops), stops, split_stop, List.append_nil]
        exact ⟨gap, congrArg (· + (rest.length + 1)) (Nat.zero_add _), rfl⟩
      rw [if_neg (not_or.mpr ⟨Ne.symm differs, stops⟩)]
      have copied (missing : escapes.split (c :: rest) = (c :: (escapes.split rest).1, (escapes.split rest).2)) :
          ∃ read, (escapes.split (c :: rest)).1.length + read.length +
            (escapes.split (c :: rest)).2.elim 0 (·.length + 1) = gap.length + (c :: rest).length ∧
          ((Tape.parts out (gap ++ [c]) (rest ++ 0 :: after)).put c).bind (fun tape =>
            tape.next (escapes.decodeLoop fuel)) = some
          ((escapes.split (c :: rest)).2.elim
            (0, Tape.parts (out ++ (escapes.split (c :: rest)).1) (read ++ [0]) after) fun rest' =>
              (escapes.stop, Tape.parts (out ++ (escapes.split (c :: rest)).1) (read ++ [escapes.stop])
                (rest' ++ 0 :: after))) := by
        obtain ⟨gap', room, written⟩ := Tape.put_read out gap c (rest ++ 0 :: after) c
        obtain ⟨read, size, run⟩ := ih (out ++ [c]) gap' rest shorter clean'
        refine ⟨read, by rw [missing]; simp only [List.length_cons]; omega, ?_⟩
        rw [written, Option.bind_some, run, missing, List.append_assoc, List.singleton_append]
      cases rest with
      | nil =>
        have unpaired : escapes.pair c 0 = none := by
          cases paired : escapes.pair c 0 with
          | none => rfl
          | some bytes => exact absurd rfl (escapes.pair_clean c 0 bytes paired).1
        rw [List.nil_append, Tape.peek_parts, Option.bind_some, unpaired]
        exact copied (if_neg stops)
      | cons ahead rest =>
        rw [List.cons_append, Tape.peek_parts, Option.bind_some]
        cases paired : escapes.pair c ahead with
        | none =>
          apply copied
          rw [split, if_neg stops, paired]
        | some bytes =>
          have room : bytes.length ≤ (gap ++ [c] ++ [ahead]).length := by
            have short := escapes.pair_short c ahead bytes paired
            simp only [List.length_append, List.length_singleton]
            omega
          obtain ⟨gap', left, written⟩ := putAll_parts out (gap ++ [c] ++ [ahead]) (rest ++ 0 :: after) bytes room
          obtain ⟨read, size, run⟩ := ih (out ++ bytes) gap' rest (by rw [List.length_cons] at shorter; omega)
            fun member => clean' (List.mem_cons_of_mem _ member)
          rw [split_pair escapes rest stops paired]
          simp only [List.length_append, List.length_singleton] at left
          refine ⟨read, by simp only [List.length_append, List.length_cons]; omega, ?_⟩
          simp only [Tape.next_parts]
          rw [written, Option.bind_some, run, List.append_assoc]

theorem split_clean (text : Bytes) (clean : (0 : Byte) ∉ text) :
    (0 : Byte) ∉ (escapes.split text).1 ∧ ∀ rest ∈ (escapes.split text).2, (0 : Byte) ∉ rest := by
  fun_induction escapes.split text with
  | case1 => exact ⟨List.not_mem_nil, by simp⟩
  | case2 => exact ⟨List.not_mem_nil, by simp⟩
  | case3 => exact ⟨clean, by simp⟩
  | case4 ahead rest =>
    refine ⟨List.not_mem_nil, fun rest' member => ?_⟩
    cases member
    exact fun inside => clean (List.mem_cons_of_mem _ inside)
  | case5 byte ahead rest other bytes paired ih =>
    obtain ⟨field, later⟩ := ih fun inside => clean (List.mem_cons_of_mem _ (List.mem_cons_of_mem _ inside))
    refine ⟨fun inside => ?_, later⟩
    rcases List.mem_append.mp inside with here | there
    · exact (escapes.pair_clean byte ahead bytes paired).2 here
    · exact field there
  | case6 byte ahead rest other plain ih =>
    obtain ⟨differs, clean'⟩ := not_or.mp (List.mem_cons.not.mp clean)
    obtain ⟨field, later⟩ := ih clean'
    exact ⟨List.mem_cons.not.mpr (not_or.mpr ⟨differs, field⟩), later⟩

theorem split_suffix {text rest : Bytes} (more : (escapes.split text).2 = some rest) : rest <:+ text := by
  fun_induction escapes.split text with
  | case1 => cases more
  | case2 => cases more; exact List.nil_suffix
  | case3 => cases more
  | case4 ahead rest => cases more; exact List.suffix_cons _ _
  | case5 byte ahead later other bytes paired ih => exact (ih more).trans (List.suffix_append [byte, ahead] later)
  | case6 byte ahead later other plain ih => exact (ih more).trans (List.suffix_cons _ _)

/-- A text was decoded where it stands: its field is there, what follows the field is behind, and the cells from
there on are as they were. -/
structure Decoded (cells cells' : Bytes) (place behind : Nat) (text : Bytes) : Prop where
  field : StringAt cells' place (escapes.split text).1
  later : StringAt cells' behind ((escapes.split text).2.getD [])
  below : place + (escapes.split text).1.length + ((escapes.split text).2.elim 0 fun _ => 1) ≤ behind
  reach : behind + ((escapes.split text).2.getD []).length = place + text.length
  kept : Kept cells cells' behind

section Decoded
variable {escapes} {before text after : Bytes} (clean : (0 : Byte) ∉ text)
include clean

theorem field_there (later : Bytes) :
    StringAt (before ++ (escapes.split text).1 ++ 0 :: later) before.length (escapes.split text).1 := by
  rw [List.append_assoc]
  exact stringAt_append before later _ (escapes.split_clean text clean).1 rfl

theorem decoded_last (last : (escapes.split text).2 = none) {front : Bytes}
    (size : (escapes.split text).1.length + front.length = text.length) {gap : Bytes} (zero : 0 :: gap = front ++ [0]) :
    escapes.Decoded (before ++ (text ++ 0 :: after)) (before ++ (escapes.split text).1 ++ 0 :: (gap ++ after))
      before.length (before.length + text.length) text := by
  have cells : (before ++ (escapes.split text).1 ++ 0 :: (gap ++ after)).drop (before.length + text.length) =
      0 :: after := by
    have same : before ++ (escapes.split text).1 ++ 0 :: (gap ++ after) =
        before ++ (escapes.split text).1 ++ front ++ 0 :: after := by
      rw [← List.cons_append, zero, List.append_assoc _ front, List.append_assoc front]
      rfl
    rw [same]
    apply List.drop_left'
    simp only [List.length_append]
    omega
  refine ⟨field_there clean _, ?_, ?_, ?_, ?_⟩
  · rw [last, Option.getD_none]
    exact ⟨List.not_mem_nil, after, cells⟩
  · rw [last, Option.elim_none]
    omega
  · rw [last]
    rfl
  · rw [Kept, cells, ← List.append_assoc]
    exact (List.drop_left' List.length_append).symm

theorem decoded_stopped {rest : Bytes} (more : (escapes.split text).2 = some rest) {front : Bytes}
    (whole : front ++ rest = text) {gap : Bytes} (size : (escapes.split text).1.length + 1 + gap.length = front.length) :
    escapes.Decoded (before ++ (text ++ 0 :: after))
      (before ++ (escapes.split text).1 ++ 0 :: (gap ++ (rest ++ 0 :: after))) before.length
      (before.length + front.length) text := by
  have cells : (before ++ (escapes.split text).1 ++ 0 :: (gap ++ (rest ++ 0 :: after))).drop
      (before.length + front.length) = rest ++ 0 :: after := by
    rw [← List.cons_append, ← List.append_assoc]
    apply List.drop_left'
    simp only [List.length_append, List.length_cons]
    omega
  refine ⟨field_there clean _, ?_, ?_, ?_, ?_⟩
  · rw [more, Option.getD_some]
    exact ⟨(escapes.split_clean text clean).2 rest more, after, cells⟩
  · rw [more, Option.elim_some]
    omega
  · rw [more, Option.getD_some, ← whole, List.length_append, Nat.add_assoc]
  · rw [Kept, cells, ← whole, List.append_assoc, ← List.append_assoc before front]
    exact (List.drop_left' List.length_append).symm

end Decoded

theorem decodeInPlace_spec {cells text : Bytes} {place : Nat} (stands : StringAt cells place text) :
    ∃ next cells', escapes.decodeInPlace cells place =
        some ((escapes.split text).2.elim 0 fun _ => escapes.stop, next, cells') ∧
      escapes.Decoded cells cells' place ((escapes.split text).2.elim (next - 1) fun _ => next) text := by
  obtain ⟨before, after, rfl, rfl⟩ := stands.split
  have start : (⟨before ++ (text ++ 0 :: after), before.length, before.length⟩ : Tape) =
      Tape.parts before [] (text ++ 0 :: after) := by
    rw [Tape.parts, List.append_nil]
    rfl
  obtain ⟨read, size, run⟩ := escapes.decodeLoop_spec ((before ++ (text ++ 0 :: after)).length + 1) before [] text after
    (by simp only [List.length_append, List.length_cons]; omega) stands.1
  rw [List.length_nil, Nat.zero_add] at size
  unfold decodeInPlace
  rw [start, run, Option.bind_some]
  cases ended : (escapes.split text).2 with
  | none =>
    obtain ⟨gap, -, close, zero⟩ := Tape.close_read (before ++ (escapes.split text).1) read 0 after 0
    obtain ⟨front, front_size, last⟩ := zero rfl
    rw [ended, Option.elim_none, Nat.add_zero] at size
    have behind : (Tape.parts (before ++ (escapes.split text).1) (read ++ [0]) after).read - 1 =
        before.length + text.length := by
      simp only [Tape.parts, List.length_append, List.length_singleton]
      omega
    refine ⟨_, _, by simp only [Option.elim]; rw [close]; rfl, ?_⟩
    rw [Option.elim_none, behind]
    exact decoded_last stands.1 ended (by omega) last
  | some rest =>
    obtain ⟨gap, gap_size, close, -⟩ :=
      Tape.close_read (before ++ (escapes.split text).1) read escapes.stop (rest ++ 0 :: after) 0
    obtain ⟨front, whole⟩ := escapes.split_suffix ended
    have lengths := congrArg List.length whole
    rw [List.length_append] at lengths
    rw [ended, Option.elim_some] at size
    have behind : (Tape.parts (before ++ (escapes.split text).1) (read ++ [escapes.stop]) (rest ++ 0 :: after)).read =
        before.length + front.length := by
      simp only [Tape.parts, List.length_append, List.length_singleton]
      omega
    refine ⟨_, _, by simp only [Option.elim]; rw [close]; rfl, ?_⟩
    rw [Option.elim_some, behind]
    exact decoded_stopped stands.1 ended whole (by omega)

end Escapes
end AppManager.Lib
