import SoapStab.Common.Str
import SoapStab.Lib.Decimal

/-!
# Exceptions

Exception codes, their descriptions and `ibb_exception`. The repository
throws either a bare code (`throw EX_CONFIG_ERROR`, an `int32_t`) or an
`ibb_exception`; listeners and the standard library may throw anything else
(`Thrown.other`).
-/
namespace SoapStab

open SoapStab.Lib.Decimal

/-- `ex_code_t`. mirrors src/exceptions/exceptions.h:14 -/
abbrev ExCode := Int32

/-! mirrors src/exceptions/exceptions.h:47-120 -/

def EX_ALL_OK : ExCode := 0x0
def EX_NULL_POINTER : ExCode := 0x01
def EX_INSUFFICIENT_ENV : ExCode := 0x02
def EX_UNKNOWN_CHAT_TYPE : ExCode := 0x11
def EX_UNSUCCESSFUL_TG_CALL : ExCode := 0x12
def EX_UNSUCCESSFUL_MM_CALL : ExCode := 0x13
def EX_COULDNT_SEND : ExCode := 0x14
def EX_WEBSOCKET_FAIL : ExCode := 0x15
def EX_SEND_WRONGTYPE : ExCode := 0x16
def EX_BACKEND_FAIL : ExCode := 0x17
def EX_SCHEDULER_ERROR : ExCode := 0x18
def EX_CONFIG_ERROR : ExCode := 0x19
def EX_CONFIG_LISTENER_ERROR : ExCode := 0x20
def EX_BAD_LOG_LEVEL : ExCode := 0x21

/-- mirrors src/exceptions/exceptions.cpp:12-45 -/
def exceptionDescription (exId : ExCode) : Str :=
  if exId = EX_ALL_OK then "EX_ALL_OK: All OK".toList
  else if exId = EX_NULL_POINTER then "EX_NULL_POINTER: Null pointer".toList
  else if exId = EX_UNKNOWN_CHAT_TYPE then "EX_UNKNOWN_CHAT_TYPE: Unknown chat ctype".toList
  else if exId = EX_INSUFFICIENT_ENV then "EX_INSUFFICIENT_ENV: Insufficient environment".toList
  else if exId = EX_UNSUCCESSFUL_TG_CALL then
    "EX_UNSUCCESSFUL_TG_CALL: Unsuccessful Telegram API call".toList
  else if exId = EX_UNSUCCESSFUL_MM_CALL then
    "EX_UNSUCCESSFUL_MM_CALL: Unsuccessful Mattermost API call".toList
  else if exId = EX_COULDNT_SEND then "EX_COULDNT_SEND: Could not send a message".toList
  else if exId = EX_WEBSOCKET_FAIL then "EX_WEBSOCKET_FAIL: WebSocket communication failure".toList
  else if exId = EX_SEND_WRONGTYPE then "EX_SEND_WRONGTYPE: Wrong type of message to send".toList
  else if exId = EX_BACKEND_FAIL then "EX_BACKEND_FAIL: Backend library failure".toList
  else if exId = EX_SCHEDULER_ERROR then "EX_SCHEDULER_ERROR: Scheduler error".toList
  else if exId = EX_CONFIG_ERROR then "EX_CONFIG_ERROR: Configuration error".toList
  else if exId = EX_CONFIG_LISTENER_ERROR then
    "EX_CONFIG_LISTENER_ERROR: Property listener error after setting a property".toList
  else if exId = EX_BAD_LOG_LEVEL then "EX_BAD_LOG_LEVEL: Bad log level".toList
  else "Unknown".toList

/-- mirrors src/exceptions/exceptions.h:16-37 -/
structure IbbException where
  code : ExCode
  description : Str
  what : Str
  deriving DecidableEq

/-- `_what_start` -/
def whatStart : Str := "ibb_exception ".toList

/-- mirrors src/exceptions/exceptions.cpp:47-49 -/
def IbbException.ofCode (code : ExCode) : IbbException where
  code := code
  description := exceptionDescription code
  what := whatStart ++ decInt code.toInt ++ ": ".toList ++ exceptionDescription code

/-- mirrors src/exceptions/exceptions.cpp:55-57 -/
def IbbException.ofDescription (code : ExCode) (description : Str) : IbbException where
  code := code
  description := description
  what := whatStart ++ decInt code.toInt ++ ": ".toList ++ exceptionDescription code ++ ": ".toList ++
    description

/-- What a `throw` may throw. -/
inductive Thrown where
  | exCode (code : ExCode)
  | ibb (e : IbbException)
  | other (what : Str)
  deriving DecidableEq

end SoapStab
