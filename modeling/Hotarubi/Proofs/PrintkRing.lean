import Hotarubi.Base.Circular
import Hotarubi.Log.Printk
import Hotarubi.Proofs.VcbprintfOutput

/-! The log ring as a bounded queue: what is between its two positions is always the
newest part of all output. -/

namespace Hotarubi.Log

open Base.Circular Lib.Vcbprintf

/-- What a reader finds from `out` up to `in`, going around the end of the buffer. -/
def RingBuffer.unread (r : RingBuffer) : List UInt8 :=
  window r.data r.len r.outPos (distance r.len r.outPos r.inPos)

/-- A ring that has taken the bytes of `written` since it was empty. -/
structure Keeps (r : RingBuffer) (len : Nat) (written : List UInt8) : Prop where
  length : r.len = len
  inside : r.inPos < r.len ∧ r.outPos < r.len
  unread : r.unread = newest (len - 1) written

private theorem wrap_eq {len pos : Nat} (inside : pos < len) : (if pos + 1 ≥ len then 0 else pos + 1) =
    (pos + 1) % len := by
  split
  next beyond =>
    have ends : pos + 1 = len := by omega
    rw [ends, Nat.mod_self]
  next below => exact (Nat.mod_eq_of_lt (by omega)).symm

private theorem emitByte_eq {r : RingBuffer} {c : UInt8} (inside : r.inPos < r.len ∧ r.outPos < r.len) :
    emitByte r c = {
      data := Function.update r.data r.inPos c
      inPos := (r.inPos + 1) % r.len
      outPos := if r.outPos = (r.inPos + 1) % r.len then (r.outPos + 1) % r.len else r.outPos
      len := r.len } := by
  have advanced : ∀ data, (if r.inPos + 1 ≥ r.len then { r with data, inPos := 0 }
      else { r with data, inPos := r.inPos + 1 }) = { r with data, inPos := (r.inPos + 1) % r.len } := by
    intro data
    rw [← wrap_eq inside.1]
    split <;> rfl
  simp only [emitByte, advanced]
  split
  next => rw [← wrap_eq inside.2]; split <;> rfl
  next => rfl

private theorem emitByte_spec {r : RingBuffer} (inside : r.inPos < r.len ∧ r.outPos < r.len) (room : 2 ≤ r.len)
    (c : UInt8) :
    (emitByte r c).inPos < r.len ∧ (emitByte r c).outPos < r.len ∧ (emitByte r c).len = r.len ∧
      (emitByte r c).unread = newest (r.len - 1) (r.unread ++ [c]) := by
  have positive : 0 < r.len := by omega
  rw [emitByte_eq inside]
  refine ⟨Nat.mod_lt _ positive, ?_, rfl, ?_⟩
  · dsimp only
    split
    next => exact Nat.mod_lt _ positive
    next => exact inside.2
  · have written := window_write r.data c inside.2 inside.1
    have length : r.unread.length = distance r.len r.outPos r.inPos := window_length
    have short := distance_lt r.outPos r.inPos positive
    by_cases full : distance r.len r.outPos r.inPos + 1 = r.len
    · have around := next_full inside.2 inside.1 full
      obtain ⟨n, size⟩ : ∃ n, r.len - 1 = n + 1 := ⟨r.len - 2, by omega⟩
      rw [size, newest_concat_full (by omega)]
      simp only [RingBuffer.unread, around, if_true]
      rw [distance_around inside.2 room, show r.len - 1 = distance r.len r.outPos r.inPos by omega, ← window_tail,
        written, List.tail_append_of_ne_nil]
      exact List.ne_nil_of_length_pos (by rw [window_length]; omega)
    · have spare : distance r.len r.outPos r.inPos + 1 < r.len := by omega
      have further := distance_next inside.2 inside.1 spare
      have apart : r.outPos ≠ (r.inPos + 1) % r.len := by
        intro same
        rw [← same, distance, Nat.add_sub_cancel_left, Nat.mod_self] at further
        omega
      rw [newest_of_le (by rw [List.length_append, length, List.length_singleton]; omega)]
      simp only [RingBuffer.unread, if_neg apart]
      rw [further, written]

theorem Keeps.byte {r : RingBuffer} {len : Nat} {written : List UInt8} (keeps : Keeps r len written)
    (room : 2 ≤ len) (c : UInt8) : Keeps (emitByte r c) len (written ++ [c]) := by
  obtain ⟨rfl, inside, unread⟩ := keeps
  obtain ⟨first, second, length, contents⟩ := emitByte_spec inside room c
  refine ⟨length, by rw [length]; exact ⟨first, second⟩, ?_⟩
  rw [contents, unread, newest_append]

theorem Keeps.bytes {r : RingBuffer} {len : Nat} {written : List UInt8} (keeps : Keeps r len written)
    (room : 2 ≤ len) (bytes : List UInt8) : Keeps (bytes.foldl emitByte r) len (written ++ bytes) := by
  induction bytes generalizing r written with
  | nil => simpa using keeps
  | cons c bytes ih => simpa using ih (keeps.byte room c)

/-- A ring with `in = out = 0`. -/
def emptyRing (data : Nat → UInt8) (len : Nat) : RingBuffer := ⟨data, 0, 0, len⟩

private theorem emptyRing_keeps (data : Nat → UInt8) {len : Nat} (room : 2 ≤ len) : Keeps (emptyRing data len) len [] where
  length := rfl
  inside := by
    have positive : 0 < len := by omega
    exact ⟨positive, positive⟩
  unread := by simp [RingBuffer.unread, emptyRing, distance, window, newest]

/-- A sequence of `emit` calls, each with a string and the length it is given. -/
def emitAll (r : RingBuffer) (calls : List (List UInt8 × Nat)) : RingBuffer :=
  calls.foldl (fun r call => (emit r call.1 call.2).2) r

theorem Keeps.emitAll {r : RingBuffer} {len : Nat} {written : List UInt8} (keeps : Keeps r len written)
    (room : 2 ≤ len) (calls : List (List UInt8 × Nat)) :
    Keeps (emitAll r calls) len (written ++ calls.flatMap fun call => call.1.take call.2) := by
  induction calls generalizing r written with
  | nil => simpa [Log.emitAll] using keeps
  | cons call calls ih =>
    rw [List.flatMap_cons, ← List.append_assoc]
    exact ih (keeps.bytes room (call.1.take call.2))

/-- After any calls the positions are inside the buffer, and from `out` up to `in` are
the last bytes written, all of them or as many as one cell less than the buffer holds. -/
theorem ring_keeps_newest (data : Nat → UInt8) {len : Nat} (room : 2 ≤ len) {calls : List (List UInt8 × Nat)}
    {r : RingBuffer} (ran : emitAll (emptyRing data len) calls = r) :
    let written := calls.flatMap fun call => call.1.take call.2
    r.inPos < len ∧ r.outPos < len ∧ r.unread <:+ written ∧ r.unread.length = min written.length (len - 1) := by
  have keeps := (emptyRing_keeps data room).emitAll room calls
  rw [ran] at keeps
  obtain ⟨length, inside, unread⟩ := keeps
  rw [length] at inside
  dsimp only
  rw [unread, List.nil_append]
  exact ⟨inside.1, inside.2, List.drop_suffix _ _, newest_length _ _⟩

/-- Three cells keep the last two bytes. -/
theorem ring_keeps_newest_witness :
    let r := emitAll (emptyRing (fun _ => 0) 3) [([1, 2, 3], 2), ([4, 5], 2)]
    r.inPos < 3 ∧ r.outPos < 3 ∧ r.unread <:+ [1, 2, 4, 5] ∧ r.unread.length = min 4 (3 - 1) :=
  ring_keeps_newest (fun _ => 0) (by decide) rfl

/-- The ring holds what the callback has been given so far. -/
def Logged (r : RingBuffer) (x : Printer RingBuffer) : Prop := x.p = (emitted x.trace).foldl emitByte r

theorem Logged.call {r : RingBuffer} {x : Printer RingBuffer} (logged : Logged r x) (s : List UInt8) (l : Nat) :
    Logged r (x.call emit s l).2 := by
  rw [Logged, Printer.call, emitted_append, List.foldl_append, ← logged]
  simp [emit, emitted, Event.bytes]

theorem Logged.padFrom {r : RingBuffer} {x : Printer RingBuffer} (logged : Logged r x) (useZero : Bool)
    (limit len : Nat) (rc : Int) : Logged r (padFrom emit useZero limit len rc x).2 := by
  induction limit generalizing len rc x with
  | zero => exact logged
  | succ limit ih =>
    rw [Lib.Vcbprintf.padFrom]
    split
    next => exact logged
    next =>
      split
      next => exact logged.call _ _
      next =>
        dsimp only
        split
        next => exact logged.call _ _
        next => exact ih (logged.call _ _) _ _

theorem Logged.perform {r : RingBuffer} {x : Printer RingBuffer} (logged : Logged r x) (command : Command) :
    Logged r (command.perform emit x).2 := by
  cases command with
  | puts s l =>
    simp only [Command.perform]
    split <;> exact logged.call s l
  | pad useZero len =>
    have padded := logged.padFrom useZero (toSize (toInt len) / fillSize + 1) (toSize (toInt len)) 0
    cases result : Lib.Vcbprintf.padFrom emit useZero (toSize (toInt len) / fillSize + 1) (toSize (toInt len)) 0 x with
    | mk rc y =>
      rw [result] at padded
      simp only [Command.perform, padString, result]
      split <;> exact padded
  | store length address =>
    rw [Logged, Command.perform, emitted_append, List.foldl_append, ← logged]
    rfl

theorem Logged.performAll {r : RingBuffer} {x : Printer RingBuffer} (logged : Logged r x) (commands : List Command) :
    Logged r (performAll emit commands x).2 := by
  induction commands generalizing x with
  | nil => exact logged
  | cons command commands ih =>
    rw [Lib.Vcbprintf.performAll]
    have next := logged.perform command
    dsimp only
    split
    next => exact ih next
    next => exact next

/-- `printk` appends the formatted text to the log. -/
theorem printk_keeps {r : RingBuffer} {len : Nat} {written : List UInt8} (keeps : Keeps r len written) (room : 2 ≤ len)
    (fmt : List UInt8) (args : List Arg) : Keeps (printk r fmt args).2 len (written ++ text fmt args) := by
  have accepting : Accepting emit := fun p s l => rfl
  have logged : Logged r (vcbprintf emit r fmt args).2 := by
    have start : Logged r ⟨r, 0, []⟩ := rfl
    have done := start.performAll (script fmt.length fmt args).1
    simp only [vcbprintf]
    split <;> exact done
  have same : (printk r fmt args).2 = (text fmt args).foldl emitByte r := by
    rw [← emitted_text accepting r fmt args]
    exact logged
  rw [same]
  exact keeps.bytes room _

theorem initPrintk_keeps : Keeps initPrintk 4096 [] := emptyRing_keeps _ (by decide)

end Hotarubi.Log
