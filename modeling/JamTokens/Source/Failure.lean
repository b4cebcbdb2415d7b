/-!
# Failures of input and output

A failure names its kind and carries a text for the reader of a message.
-/

set_option autoImplicit false

namespace JamTokens

inductive FailureKind
  | notFound | permissionDenied | connectionRefused | connectionReset
  | hostUnreachable | networkUnreachable | connectionAborted | notConnected
  | addrInUse | addrNotAvailable | networkDown | brokenPipe | alreadyExists
  | wouldBlock | notADirectory | isADirectory | directoryNotEmpty
  | readOnlyFilesystem | staleNetworkFileHandle | invalidInput | invalidData
  | timedOut | writeZero | storageFull | notSeekable | quotaExceeded
  | fileTooLarge | resourceBusy | executableFileBusy | deadlock
  | crossesDevices | tooManyLinks | invalidFilename | argumentListTooLong
  | interrupted | unsupported | unexpectedEof | outOfMemory | other
  deriving DecidableEq, Repr

namespace FailureKind

def name : FailureKind → String
  | notFound => "NotFound"
  | permissionDenied => "PermissionDenied"
  | connectionRefused => "ConnectionRefused"
  | connectionReset => "ConnectionReset"
  | hostUnreachable => "HostUnreachable"
  | networkUnreachable => "NetworkUnreachable"
  | connectionAborted => "ConnectionAborted"
  | notConnected => "NotConnected"
  | addrInUse => "AddrInUse"
  | addrNotAvailable => "AddrNotAvailable"
  | networkDown => "NetworkDown"
  | brokenPipe => "BrokenPipe"
  | alreadyExists => "AlreadyExists"
  | wouldBlock => "WouldBlock"
  | notADirectory => "NotADirectory"
  | isADirectory => "IsADirectory"
  | directoryNotEmpty => "DirectoryNotEmpty"
  | readOnlyFilesystem => "ReadOnlyFilesystem"
  | staleNetworkFileHandle => "StaleNetworkFileHandle"
  | invalidInput => "InvalidInput"
  | invalidData => "InvalidData"
  | timedOut => "TimedOut"
  | writeZero => "WriteZero"
  | storageFull => "StorageFull"
  | notSeekable => "NotSeekable"
  | quotaExceeded => "QuotaExceeded"
  | fileTooLarge => "FileTooLarge"
  | resourceBusy => "ResourceBusy"
  | executableFileBusy => "ExecutableFileBusy"
  | deadlock => "Deadlock"
  | crossesDevices => "CrossesDevices"
  | tooManyLinks => "TooManyLinks"
  | invalidFilename => "InvalidFilename"
  | argumentListTooLong => "ArgumentListTooLong"
  | interrupted => "Interrupted"
  | unsupported => "Unsupported"
  | unexpectedEof => "UnexpectedEof"
  | outOfMemory => "OutOfMemory"
  | other => "Other"

def all : List FailureKind :=
  [notFound, permissionDenied, connectionRefused, connectionReset, hostUnreachable,
   networkUnreachable, connectionAborted, notConnected, addrInUse, addrNotAvailable,
   networkDown, brokenPipe, alreadyExists, wouldBlock, notADirectory, isADirectory,
   directoryNotEmpty, readOnlyFilesystem, staleNetworkFileHandle, invalidInput, invalidData,
   timedOut, writeZero, storageFull, notSeekable, quotaExceeded, fileTooLarge, resourceBusy,
   executableFileBusy, deadlock, crossesDevices, tooManyLinks, invalidFilename,
   argumentListTooLong, interrupted, unsupported, unexpectedEof, outOfMemory, other]

def ofName? (s : String) : Option FailureKind := all.find? (·.name == s)

end FailureKind

structure Failure where
  kind : FailureKind
  message : String
  deriving DecidableEq, Repr

namespace Failure

def invalidText : Failure := ⟨.invalidData, "stream did not contain valid UTF-8"⟩

def noSuchFile : Failure := ⟨.notFound, "No such file or directory (os error 2)"⟩

def fileExists : Failure := ⟨.alreadyExists, "File exists (os error 17)"⟩

def notADirectory : Failure := ⟨.notADirectory, "Not a directory (os error 20)"⟩

def isADirectory : Failure := ⟨.isADirectory, "Is a directory (os error 21)"⟩

end Failure

end JamTokens
