import MrLib.Core.Fn
import MrLib.Protocol.Receive

/-!
# Receiving the output

`receive_output_from_reducer` of `protocol.c`.
-/

namespace MrLib

open Conc

variable {α : Type}

/-- The error paths inside the loop. -/
def outputFailed (format : String) : Fn α := do
  mrLogError format
  let _ ← sysInt (.fclose .output)
  ret (-1)

/-- `receive_output_from_reducer`, up to its loop. -/
def receiveOutputFromReducer (job : Job) : Fn MainPhase := do
  syscallRetCheck (← mrLogInfo "Receiving output from reducer and writing to '%s'") skip
  syscallRetCheck (← sysInt (.fopen .output job.outputPath)) (mrLogError "Failed to open output file '%s'")
  let header ← uninit 16
  return .record job header

/-- The token of a record. -/
def receiveRecordToken (readFd tokenLength : Nat) : Fn Unit := do
  if 0 < tokenLength then
    match ← malloc tokenLength with
    | none => outputFailed "Failed to allocate memory for token"
    | some block =>
      match ← readN readFd tokenLength with
      | none => outputFailed "Failed to read token from reducer"
      | some bs =>
        syscallRetCheck (← sysInt (.fwrite (fill block bs))) (outputFailed "Failed to write token to file")

/-- The result of a record. -/
def receiveRecordResult (readFd resultSize : Nat) : Fn Unit := do
  match ← malloc resultSize with
  | none =>
    if 0 < resultSize then
      outputFailed "Failed to allocate memory for result"
  | some block =>
    if 0 < resultSize then
      match ← readN readFd resultSize with
      | none => outputFailed "Failed to read result from reducer"
      | some bs =>
        syscallRetCheck (← sysInt (.fwrite (fill block bs))) (outputFailed "Failed to write result to file")

/-- `receive_output_from_reducer`, after its loop. -/
def receiveOutputEnd : Fn Unit := do
  syscallRetCheck (← sysInt (.fclose .output)) (mrLogError "Failed to close output file '%s'")
  syscallRetCheck (← mrLogInfo "Finished receiving output from reducer") skip

/-- `receive_output_from_reducer`, one iteration of its loop. The header is read over the one before it. -/
def receiveRecord (job : Job) (header : Bytes) : Fn MainPhase := do
  match ← readN job.reducerToMain.1 16 with
  | none => outputFailed "Failed to read result header from reducer"
  | some [] =>
    receiveOutputEnd
    ret 0
  | some (b :: bs) =>
    let header := fill header (b :: bs)
    let tokenLength := leNat (header.take 8)
    let resultSize := leNat ((header.drop 8).take 8)
    syscallRetCheck (← sysInt (.fwrite (sizeBytes tokenLength))) (outputFailed "Failed to write token length to file")
    receiveRecordToken job.reducerToMain.1 tokenLength
    syscallRetCheck (← sysInt (.fwrite (sizeBytes resultSize))) (outputFailed "Failed to write result size to file")
    receiveRecordResult job.reducerToMain.1 resultSize
    return .record job header

end MrLib
