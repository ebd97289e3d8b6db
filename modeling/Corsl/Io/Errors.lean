/-!
# Win32 codes and the exceptions made of them (`impl/errors.h`)

* `hresultFromWin32`: `HRESULT_FROM_WIN32`, on the 32 bits of a code.
* `IoError`: what the awaitables of I/O throw, an `operation_cancelled` or an `hresult_error` that
  is none.
* `Completion`: what an overlapped operation ends with. The awaitables that share `awaitable_base`
  make their result of it in one way (`awaitResume`).
-/

namespace Corsl

namespace Io

def noError : UInt32 := 0

def errorHandleEof : UInt32 := 38

def errorOperationAborted : UInt32 := 995

def errorCancelled : UInt32 := 1223

def errorTimeout : UInt32 := 1460

/-- `HRESULT_FROM_WIN32`: a code that is zero or negative stays as it is. -/
def hresultFromWin32 (error : UInt32) : UInt32 :=
  if error = 0 ∨ 0x80000000 ≤ error then error else (error &&& 0xFFFF) ||| 0x80070000

/-- `corsl::operation_cancelled`, and any other `corsl::hresult_error`. -/
inductive IoError where
  | operationCancelled
  | hresultError (code : UInt32)
  deriving DecidableEq, Repr

/-- `hresult_error::code`. -/
def IoError.code : IoError → UInt32
  | .operationCancelled => hresultFromWin32 errorCancelled
  | .hresultError code => code

/-- `check_win32`. -/
def checkWin32 (error : UInt32) : Except IoError Unit :=
  if error = 0 then .ok () else .error (.hresultError (hresultFromWin32 error))

/-- What an operation ends with: a code, and a count of bytes, which is a `DWORD`. -/
inductive Completion where
  | ended (code bytes : UInt32)
  /-- The operation's own `CancelIoEx` has aborted it. -/
  | ownAbort (bytes : UInt32)
  deriving DecidableEq, Repr

namespace Completion

def code : Completion → UInt32
  | .ended code _ => code
  | .ownAbort _ => errorOperationAborted

def bytes : Completion → UInt32
  | .ended _ bytes | .ownAbort bytes => bytes

def isOwnAbort : Completion → Bool
  | .ended _ _ => false
  | .ownAbort _ => true

theorem code_of_isOwnAbort {c : Completion} (h : c.isOwnAbort = true) :
    c.code = errorOperationAborted := by
  cases c with
  | ended code bytes => cases h
  | ownAbort bytes => rfl

end Completion

/-- `await_resume` of `resumable_io` and `cancellable_resumable_io`. -/
def awaitResume (result : UInt32) (internalHigh : UInt64) : Except IoError UInt32 :=
  if result ≠ errorHandleEof then (checkWin32 result).map fun _ => internalHigh.toUInt32
  else .ok internalHigh.toUInt32

/-- An awaitable of I/O throws the code of each failure, and nothing else. -/
theorem awaitResume_eq (result : UInt32) (internalHigh : UInt64) :
    awaitResume result internalHigh = if result = noError ∨ result = errorHandleEof then
      .ok internalHigh.toUInt32 else .error (.hresultError (hresultFromWin32 result)) := by
  unfold awaitResume checkWin32 noError
  by_cases h0 : result = 0 <;> by_cases he : result = errorHandleEof <;> simp_all [Except.map]

end Io

end Corsl
