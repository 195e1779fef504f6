import MrLib.Core.Fn

/-!
# Sending the input

`is_directory`, `send_file_to_mapper`, `send_files_in_directory_to_mapper` and `send_input_to_mapper` of `protocol.c`.
-/

namespace MrLib

open Conc

/-- `PATH_MAX` -/
def pathMax : Nat := 4096

/-- `is_directory` -/
def isDirectory (path : Bytes) : Fn Int := do
  match ← sysCall (.stat path) with
  | .val (.isDir b) => return if b then 1 else 0
  | _ =>
    mrLogError "Failed to stat path '%s'"
    ret (-1)

/-- `mr_line_header_t` in memory; the padding after `eof` is not initialised. -/
def lineHeader (eof : Bool) (lineLength : Nat) : IoProg Bytes := do
  let padding ← uninit 7
  return (if eof then 1 else 0) :: padding ++ sizeBytes lineLength

/-- A line without the newline that ends it. -/
def dropNewline (line : Bytes) : Bytes := if line.getLast? = some 10 then line.dropLast else line

/-- `send_file_to_mapper`, up to its loop. -/
def sendFileOpen (writeFd : Nat) (filePath : Bytes) : Fn Unit := do
  syscallRetCheck (← mrLogInfo "Sending file '%s' to mapper") skip
  syscallRetCheck (← sysInt (.fopen .input filePath)) (mrLogError "Failed to open file '%s'")
  syscallRetCheck (← writeN writeFd (sizeBytes filePath.length)) do
    mrLogError "Failed to send file name header for file '%s'"
    let _ ← sysInt (.fclose .input)
  syscallRetCheck (← writeN writeFd filePath) do
    mrLogError "Failed to send file name string for file '%s'"
    let _ ← sysInt (.fclose .input)

/-- `send_file_to_mapper`, one iteration of its loop; `false` when there is no more line. -/
def sendFileLine (writeFd : Nat) : Fn Bool := do
  match ← sysCall .getline with
  | .val (.bytes (b :: bs)) =>
    let line := dropNewline (b :: bs)
    syscallRetCheck (← writeN writeFd (← lineHeader false line.length)) do
      mrLogError "Failed to send line header for file '%s'"
      let _ ← sysInt (.fclose .input)
    if 0 < line.length then
      syscallRetCheck (← writeN writeFd line) do
        mrLogError "Failed to send line data for file '%s'"
        let _ ← sysInt (.fclose .input)
    return true
  | _ => return false

/-- `send_file_to_mapper`, after its loop. -/
def sendFileEnd (writeFd : Nat) : Fn Unit := do
  syscallRetCheck (← sysInt (.ferror .input)) do
    mrLogError "Error occurred while reading file '%s'"
    let _ ← sysInt (.fclose .input)
  syscallRetCheck (← writeN writeFd (← lineHeader true 0)) do
    mrLogError "Failed to send eof for file '%s'"
    let _ ← sysInt (.fclose .input)
  syscallRetCheck (← sysInt (.fclose .input)) (mrLogError "Failed to close file '%s'")
  syscallRetCheck (← mrLogInfo "Finished sending file '%s' to mapper") skip

/-- `send_file_to_mapper`, at the head of its loop. -/
def sendFileLoop (job : Job) (caller : SendCaller) (filePath : Bytes) : Fn MainPhase := do
  if ← sendFileLine job.mainToMapper.2 then
    return .line job caller filePath
  sendFileEnd job.mainToMapper.2
  ret 0

/-- `send_file_to_mapper` -/
def sendFileToMapper (job : Job) (caller : SendCaller) (filePath : Bytes) : Fn MainPhase := do
  sendFileOpen job.mainToMapper.2 filePath
  return .line job caller filePath

/-- `snprintf(full_path, sizeof(full_path), "%s/%s", dir_path, namelist[i]->d_name);` -/
def fullPath (dirPath name : Bytes) : Bytes := (dirPath ++ 47 :: name).take (pathMax - 1)

/-- `send_files_in_directory_to_mapper`, from the loop on. -/
def sendEntries (job : Job) (dirPath : Bytes) : List Bytes → Fn MainPhase
  | [] => do
    syscallRetCheck (← mrLogInfo "Finished sending files in directory '%s' to mapper") skip
    ret 0
  | name :: entries =>
    if name = [46] ∨ name = [46, 46] then sendEntries job dirPath entries
    else do
      let isDir ← (isDirectory (fullPath dirPath name)).call
      syscallRetCheck isDir (mrLogError "Failed to determine if entry '%s' is a directory")
      if isDir = 1 then
        let _ ← mrLogWarning "Skipping directory '%s' in input directory '%s'"
        sendEntries job dirPath entries
      else
        (sendFileToMapper job (.directory dirPath entries) (fullPath dirPath name)).within fun r => do
          syscallRetCheck r (mrLogError "Failed to send file '%s' in directory '%s' to mapper")
          sendEntries job dirPath entries

/-- `send_files_in_directory_to_mapper` -/
def sendFilesInDirectoryToMapper (job : Job) (dirPath : Bytes) : Fn MainPhase := do
  syscallRetCheck (← mrLogInfo "Scanning directory '%s' for files to send to mapper") skip
  match ← sysCall (.scandir dirPath) with
  | .val (.names namelist) =>
    syscallRetCheck (← mrLogInfo "Found %d entries in directory '%s'") skip
    sendEntries job dirPath namelist
  | _ =>
    mrLogError "Failed to scan directory '%s'"
    ret (-1)

/-- `send_files_in_directory_to_mapper`, when `send_file_to_mapper` has returned `r`. -/
def sentFile (job : Job) (dirPath : Bytes) (entries : List Bytes) (r : Int) : Fn MainPhase := do
  syscallRetCheck r (mrLogError "Failed to send file '%s' in directory '%s' to mapper")
  sendEntries job dirPath entries

/-- `send_input_to_mapper`, when the file or the directory has been sent with result `r`. -/
def sentInput (r : Int) : Fn MainPhase := do
  syscallRetCheck r skip
  syscallRetCheck (← mrLogInfo "Finished sending input from path '%s' to mapper") skip
  ret 0

/-- `send_input_to_mapper` -/
def sendInputToMapper (job : Job) : Fn MainPhase := do
  let isDir ← (isDirectory job.inputPath).call
  syscallRetCheck isDir skip
  syscallRetCheck (← mrLogInfo "Input path '%s' is a %s") skip
  if isDir = 0 then (sendFileToMapper job .input job.inputPath).within sentInput
  else (sendFilesInDirectoryToMapper job job.inputPath).within sentInput

/-- The callers of `send_file_to_mapper` up to `send_input_to_mapper`. -/
def SendCaller.within (job : Job) (f : Fn MainPhase) : SendCaller → Fn MainPhase
  | .input => f.within sentInput
  | .directory dirPath entries => (f.within (sentFile job dirPath entries)).within sentInput

end MrLib
