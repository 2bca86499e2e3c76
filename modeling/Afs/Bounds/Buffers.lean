import Afs.Core.Strings
import Afs.Model.Common

/-!
# The path buffers

The three path builders on memory instead of strings. Every `strncat` bounds what it appends by
`MAX_PATH_LENGTH`, and so does the `strncpy` of each `main`; the destination has room for
`MAX_PATH_LENGTH` bytes in all.
-/

namespace Afs

open Posix CString

/-- `getServerPath`, from the memory at each argument to the memory at the destination. -/
def getServerPathBuffer (clientpath root_path server_path : Bytes) : Bytes :=
  strncat (strncat (server_path.set 0 0) root_path MAX_PATH_LENGTH) clientpath MAX_PATH_LENGTH

/-- `getLocalPath` on memory. -/
def getLocalPathBuffer (file_path cache_path client_path : Bytes) : Bytes :=
  strncat (strncat (client_path.set 0 0) cache_path MAX_PATH_LENGTH) file_path MAX_PATH_LENGTH

/-- `getLocalTmpPath` on memory. -/
def getLocalTmpPathBuffer (file_path cache_path client_path : Bytes) : Bytes :=
  strncat (strncat (strncat (client_path.set 0 0) cache_path MAX_PATH_LENGTH) file_path
    MAX_PATH_LENGTH) (cstr "_tmp") MAX_PATH_LENGTH

/-- What `main` makes of the directory named on its command line: the array `root_path` or
`cache_path`, and the memory behind it. -/
def installed (arg behind : Bytes) : Bytes := strncpy arg MAX_PATH_LENGTH ++ behind

section Strings

variable (path arg behind dest : Bytes)

theorem str_tmp : str (cstr "_tmp") = cstr "_tmp" := by decide

/-- The string in the server's buffer is the path of the model. -/
theorem str_getServerPathBuffer :
    str (getServerPathBuffer path (installed arg behind) dest) = getServerPath (str path) (str arg) := by
  rw [getServerPathBuffer, str_strncat, str_strncat, str_set_zero, List.nil_append, installed,
    take_str_strncpy, getServerPath, str_str]

theorem str_getLocalPathBuffer :
    str (getLocalPathBuffer path (installed arg behind) dest) = getLocalPath (str path) (str arg) := by
  have h := str_getServerPathBuffer path arg behind dest
  rw [getServerPath, str_str] at h
  exact h

theorem str_getLocalTmpPathBuffer :
    str (getLocalTmpPathBuffer path (installed arg behind) dest) =
      getLocalTmpPath (str path) (str arg) := by
  rw [getLocalTmpPathBuffer, str_strncat, str_strncat, str_strncat, str_set_zero, List.nil_append,
    installed, take_str_strncpy, str_tmp]
  rfl

/-- A builder's result is terminated, so it fits when the string leaves one byte. -/
theorem fits_getServerPathBuffer_iff :
    Fits (getServerPathBuffer path (installed arg behind) dest) MAX_PATH_LENGTH ↔
      (str arg).length + (str path).length < MAX_PATH_LENGTH := by
  have hterminated := zero_mem_strncat (strncat (dest.set 0 0) (installed arg behind) MAX_PATH_LENGTH)
    path MAX_PATH_LENGTH
  rw [Fits, str_getServerPathBuffer, getServerPath, str_str, List.length_append, List.length_take,
    List.length_take, getServerPathBuffer, and_iff_right hterminated]
  omega

theorem fits_getLocalTmpPathBuffer_iff :
    Fits (getLocalTmpPathBuffer path (installed arg behind) dest) MAX_PATH_LENGTH ↔
      (str arg).length + (str path).length + 4 < MAX_PATH_LENGTH := by
  have hterminated := zero_mem_strncat (strncat (strncat (dest.set 0 0) (installed arg behind)
    MAX_PATH_LENGTH) path MAX_PATH_LENGTH) (cstr "_tmp") MAX_PATH_LENGTH
  have hsuffix : (cstr "_tmp").length = 4 := by decide
  rw [Fits, str_getLocalTmpPathBuffer, getLocalTmpPath, List.length_append, List.length_append,
    List.length_take, List.length_take, hsuffix, getLocalTmpPathBuffer, and_iff_right hterminated]
  omega

/-- For every directory on the command line and every path, whatever stands behind the copied
directory and in the destination before: the three builders stay inside their buffers exactly when
the directory and the path, with the suffix of the temporary file, leave room for the terminator. -/
theorem path_builders_fit_iff :
    (Fits (getServerPathBuffer path (installed arg behind) dest) MAX_PATH_LENGTH ↔
      (str arg).length + (str path).length < MAX_PATH_LENGTH) ∧
    (Fits (getLocalPathBuffer path (installed arg behind) dest) MAX_PATH_LENGTH ↔
      (str arg).length + (str path).length < MAX_PATH_LENGTH) ∧
    (Fits (getLocalTmpPathBuffer path (installed arg behind) dest) MAX_PATH_LENGTH ↔
      (str arg).length + (str path).length + 4 < MAX_PATH_LENGTH) := by
  refine ⟨?_, ?_, ?_⟩
  · exact fits_getServerPathBuffer_iff path arg behind dest
  · exact fits_getServerPathBuffer_iff path arg behind dest
  · exact fits_getLocalTmpPathBuffer_iff path arg behind dest

end Strings

/-- A request whose path has 996 bytes takes the terminator behind the end of the buffer. -/
theorem long_request_overruns :
    ¬ Fits (getServerPathBuffer (slash :: List.replicate 995 97) (installed (cstr "/srv") [])
      (List.replicate 1000 0)) MAX_PATH_LENGTH := by
  rw [fits_getServerPathBuffer_iff]
  decide +kernel

end Afs
