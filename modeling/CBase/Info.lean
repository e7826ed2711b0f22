import Mathlib.Init

/-!
# Info codes

`Info` is `cb_info_t`, the code that every operation of the library returns or stores. Here as in the
modules behind this one, a definition of the C code has the name that it has there, in camel case and
without the `cb_` and the name of the module in front.
-/

namespace CBase

/-- `cb_info_t`, in the order of the header. The sentinel `CB_INFO__LAST` is no code. -/
inductive Info where
  | ok
  | genericError
  | threadCreateFailed
  | threadJoinFailed
  | threadDetachFailed
  | mutexCreateFailed
  | mutexDestroyFailed
  | mutexLockFailed
  | mutexUnlockFailed
  | mutexTrylockFailed
  | mutexBusy
  | condCreateFailed
  | condDestroyFailed
  | condWaitFailed
  | condSignalFailed
  | queueFull
  | queueEmpty
  | queueDestroyFailed
  | allocFailed
  | arenaOutOfMemory
  | netInitFailed
  | netWouldBlock
  | netAddrInvalid
  | netSocketFailed
  | netBindFailed
  | netListenFailed
  | netAcceptFailed
  | netConnectFailed
  | netSendFailed
  | netRecvFailed
  | netClosed
  | netPollFailed
  | netNonblockFailed
  | rngBadStride
  | bytesOutOfBounds
  | bytesFrameTooLarge
  | timeBadTickHz
  | timeTickLag
  | configParseError
  | configBadKey
  | configUnterminatedString
  | configBadEscape
  | configLineTooLong
  | configFileOpenFailed
  | configFileTooLarge
  | configAllocFailed
  | configKeyNotFound
  | configBadInt
  | configBadBool
  | logInvalidSink
  | logWriteFailed
  | netsimDuplicateAddr
  | netsimUnknownDest
  | netsimEmpty
  | netsimBufTooSmall
  | netsimAllocFailed
  | netsimBadParams
  | netsimPayloadTooLarge
  deriving DecidableEq, Repr

end CBase
