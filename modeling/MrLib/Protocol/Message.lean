import MrLib.Lib.LittleEndian
import MrLib.Queue.Code

/-!
# The data on the pipes

Bytes, C strings and objects, and the messages of `protocol.h`. `mr_pair_header_t` and `mr_result_header_t` both hold
two `size_t` (16 bytes), `mr_file_name_header_t` one, `mr_line_header_t` a `bool`, seven bytes of padding and a
`size_t`. All processes run on one machine, so the byte order of a `size_t` is a convention: least significant first.

A C string or an object in memory has at most `PTRDIFF_MAX` bytes; `CString` and `Obj` carry this bound, so their
lengths always fit in a header.
-/

namespace MrLib

open Conc

abbrev Bytes := List UInt8

/-- `PTRDIFF_MAX`: no object in memory is larger, and `malloc` refuses more. -/
def ptrdiffMax : Nat := 2 ^ 63 - 1

/-- A `size_t` in memory. -/
def sizeBytes (n : Nat) : Bytes := leBytes 8 n

/-- A NUL-terminated string, without its NUL. -/
structure CString where
  bytes : Bytes
  nulFree : (0 : UInt8) ∉ bytes
  fits : bytes.length < ptrdiffMax
  deriving DecidableEq

/-- The bytes of an object, possibly none. -/
structure Obj where
  bytes : Bytes
  fits : bytes.length ≤ ptrdiffMax
  deriving DecidableEq

/-- The string `a`. -/
def CString.a : CString := ⟨[97], by decide, by decide⟩

/-- No bytes. -/
def Obj.empty : Obj := ⟨[], by decide⟩

/-- The object with the bytes `bs`, if there can be one. -/
def Obj.ofBytes (bs : Bytes) : Obj := if h : bs.length ≤ ptrdiffMax then ⟨bs, h⟩ else .empty

/-- A `<token, value>` pair of the mapper, or a `<token, result>` of the reducer. -/
structure Msg where
  token : CString
  value : Obj
  deriving DecidableEq

/-- The header of a pair or of a result: `mr_pair_header_t`, `mr_result_header_t`. -/
def msgHeader (m : Msg) : Bytes := sizeBytes m.token.bytes.length ++ sizeBytes m.value.bytes.length

/-- `send_pair_to_reducer_fd` and `send_result_to_main_fd`: the `write_n` calls for a message when none fails. The
token and the value are only written when they are not empty. -/
def sendChunks (m : Msg) : List Bytes :=
  [msgHeader m] ++ (if 0 < m.token.bytes.length then [m.token.bytes] else []) ++
    (if 0 < m.value.bytes.length then [m.value.bytes] else [])

/-- `send_pair_to_reducer_fd` -/
def sendPairToReducerFd (m : Msg) : List Bytes := sendChunks m

/-- `send_result_to_main_fd` -/
def sendResultToMainFd (m : Msg) : List Bytes := sendChunks m

/-- A whole message on the wire. -/
def Msg.wire (m : Msg) : Bytes := msgHeader m ++ m.token.bytes ++ m.value.bytes

/-- Whatever is empty, the chunks of a message make the whole message. -/
theorem flatten_sendChunks (m : Msg) : (sendChunks m).flatten = m.wire := by
  have h : ∀ b : Bytes, (if 0 < b.length then [b] else ([] : List Bytes)).flatten = b := by
    intro b
    cases b <;> simp
  simp only [sendChunks, List.flatten_append, h, Msg.wire, List.flatten_cons, List.flatten_nil, List.append_nil]

@[simp] theorem length_msgHeader (m : Msg) : (msgHeader m).length = 16 := by simp [msgHeader, sizeBytes]

/-- No chunk of a message is empty. -/
theorem sendChunks_ne_nil {m : Msg} {c : Bytes} (h : c ∈ sendChunks m) : c ≠ [] := by
  intro hc
  subst hc
  simp only [sendChunks, List.mem_append, List.mem_singleton] at h
  rcases h with (h | h) | h
  · have := congrArg List.length h
    simp at this
  · split at h
    · rename_i h0
      rw [List.mem_singleton] at h
      simp [← h] at h0
    · cases h
  · split at h
    · rename_i h0
      rw [List.mem_singleton] at h
      simp [← h] at h0
    · cases h

end MrLib
