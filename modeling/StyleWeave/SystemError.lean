/-!
# Errors of the operating system

What a file operation answers when it cannot be done: its kind, the system's number for it if the
system itself refused, and a message.
-/

namespace StyleWeave

/-- An error of a file operation. -/
structure SystemError where
  kind : String
  /-- The number the system gave, if the system refused the operation. -/
  code : Option Nat
  message : String
  deriving DecidableEq, Repr, Inhabited

namespace SystemError

/-- The kinds of errors with what they are called in messages. -/
def kinds : List (String × String) := [
  ("AddrInUse", "address in use"),
  ("AddrNotAvailable", "address not available"),
  ("AlreadyExists", "entity already exists"),
  ("ArgumentListTooLong", "argument list too long"),
  ("BrokenPipe", "broken pipe"),
  ("ConnectionAborted", "connection aborted"),
  ("ConnectionRefused", "connection refused"),
  ("ConnectionReset", "connection reset"),
  ("CrossesDevices", "cross-device link or rename"),
  ("Deadlock", "deadlock"),
  ("DirectoryNotEmpty", "directory not empty"),
  ("ExecutableFileBusy", "executable file busy"),
  ("FileTooLarge", "file too large"),
  ("FilesystemLoop", "filesystem loop or indirection limit (e.g. symlink loop)"),
  ("HostUnreachable", "host unreachable"),
  ("InProgress", "in progress"),
  ("Interrupted", "operation interrupted"),
  ("InvalidData", "invalid data"),
  ("InvalidFilename", "invalid filename"),
  ("InvalidInput", "invalid input parameter"),
  ("IsADirectory", "is a directory"),
  ("NetworkDown", "network down"),
  ("NetworkUnreachable", "network unreachable"),
  ("NotADirectory", "not a directory"),
  ("NotConnected", "not connected"),
  ("NotFound", "entity not found"),
  ("NotSeekable", "seek on unseekable file"),
  ("Other", "other error"),
  ("OutOfMemory", "out of memory"),
  ("PermissionDenied", "permission denied"),
  ("QuotaExceeded", "quota exceeded"),
  ("ReadOnlyFilesystem", "read-only filesystem or storage medium"),
  ("ResourceBusy", "resource busy"),
  ("StaleNetworkFileHandle", "stale network file handle"),
  ("StorageFull", "no storage space"),
  ("TimedOut", "timed out"),
  ("TooManyLinks", "too many links"),
  ("Uncategorized", "uncategorized error"),
  ("UnexpectedEof", "unexpected end of file"),
  ("Unsupported", "unsupported"),
  ("WouldBlock", "operation would block"),
  ("WriteZero", "write zero")]

/-- What the kind of an error is called in messages. -/
def description (e : SystemError) : String :=
  (kinds.lookup e.kind).getD "uncategorized error"

/-- The error as messages show it. -/
def display (e : SystemError) : String :=
  match e.code with
  | some code => e.message ++ " (os error " ++ toString code ++ ")"
  | none => e.message

/-- A path that leads nowhere. -/
def notFound : SystemError := ⟨"NotFound", some 2, "No such file or directory"⟩

/-- A path that goes through a file. -/
def notADirectory : SystemError := ⟨"NotADirectory", some 20, "Not a directory"⟩

/-- A directory where a file is wanted. -/
def isADirectory : SystemError := ⟨"IsADirectory", some 21, "Is a directory"⟩

/-- A name that is taken. -/
def alreadyExists : SystemError := ⟨"AlreadyExists", some 17, "File exists"⟩

/-- A name longer than a directory can hold. -/
def nameTooLong : SystemError := ⟨"InvalidFilename", some 36, "File name too long"⟩

/-- A file whose bytes are no UTF-8. -/
def notUtf8 : SystemError := ⟨"InvalidData", none, "stream did not contain valid UTF-8"⟩

/-- A path that holds a NUL, which the system cannot be asked for. -/
def embeddedNul : SystemError :=
  ⟨"InvalidInput", none, "file name contained an unexpected NUL byte"⟩

end SystemError

end StyleWeave
