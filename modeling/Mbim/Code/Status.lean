/-!
# Status codes

The outcome that the answers to open and close requests carry.

* `Status.ofCode` and `Status.code`: reading and writing; `code_ofCode` says that no code is lost.
* `Status.isSuccess`: only the named `success` is one. An `other 0` is not, and becomes one when
  its code is read back.
-/

namespace Mbim

/-- How a request ended. -/
inductive Status where
  /-- The operation succeeded. -/
  | success
  /-- The device is busy. -/
  | busy
  /-- The operation failed for a reason not given. -/
  | failure
  /-- There is no SIM in the slot. -/
  | simNotInserted
  /-- The SIM cannot be used. -/
  | badSim
  /-- A PIN has to be entered before. -/
  | pinRequired
  /-- The PIN is not checked at present. -/
  | pinDisabled
  /-- The device is not registered with a network. -/
  | notRegistered
  /-- No provider was found. -/
  | providersNotFound
  /-- The device lacks the operation. -/
  | noDeviceSupport
  /-- The chosen provider cannot be seen. -/
  | providerNotVisible
  /-- The data class asked for is not available. -/
  | dataClassNotAvailable
  /-- The packet service is detached. -/
  | packetServiceDetached
  /-- As many contexts as possible are active already. -/
  | maxActivatedContexts
  /-- The device is still starting. -/
  | notInitialized
  /-- A voice call stands in the way. -/
  | voiceCallInProgress
  /-- The context is not active. -/
  | contextNotActivated
  /-- The service is not active. -/
  | serviceNotActivated
  /-- The access string is wrong. -/
  | invalidAccessString
  /-- The user name or the password is wrong. -/
  | invalidUserNamePwd
  /-- The radio is off. -/
  | radioPowerOff
  /-- A parameter of the request is wrong. -/
  | invalidParameters
  /-- Reading from the device or the SIM failed. -/
  | readFailure
  /-- Writing to the device or the SIM failed. -/
  | writeFailure
  /-- There is no phonebook. -/
  | noPhonebook
  /-- A parameter is too long. -/
  | parameterTooLong
  /-- The SIM toolkit is busy. -/
  | stkBusy
  /-- The operation is forbidden. -/
  | operationNotAllowed
  /-- The memory of the device or the SIM failed. -/
  | memoryFailure
  /-- The memory index is outside its range. -/
  | invalidMemoryIndex
  /-- The memory of the device or the SIM is full. -/
  | memoryFull
  /-- The filter is not known. -/
  | filterNotSupported
  /-- There are as many device service streams as possible. -/
  | dssInstanceLimit
  /-- The device service lacks the operation. -/
  | invalidDeviceServiceOperation
  /-- The network's token failed authentication. -/
  | authIncorrectAutn
  /-- The two ends of an authentication are out of step. -/
  | authSyncFailure
  /-- The authentication management bit is missing. -/
  | authAmfNotSet
  /-- The type of context is not known. -/
  | contextNotSupported
  /-- The address of the message centre is unknown. -/
  | smsUnknownSmscAddress
  /-- The network did not take the text message in time. -/
  | smsNetworkTimeout
  /-- The language of the text message is not known. -/
  | smsLangNotSupported
  /-- The encoding of the text message is not known. -/
  | smsEncodingNotSupported
  /-- The format of the text message is not known. -/
  | smsFormatNotSupported
  /-- A code kept as it came. -/
  | other (code : UInt32)
  deriving DecidableEq

namespace Status

/-- Those with a name, in the order of their codes. -/
def named : List Status :=
  [success, busy, failure, simNotInserted, badSim, pinRequired, pinDisabled, notRegistered,
    providersNotFound, noDeviceSupport, providerNotVisible, dataClassNotAvailable,
    packetServiceDetached, maxActivatedContexts, notInitialized, voiceCallInProgress,
    contextNotActivated, serviceNotActivated, invalidAccessString, invalidUserNamePwd,
    radioPowerOff, invalidParameters, readFailure, writeFailure, noPhonebook, parameterTooLong,
    stkBusy, operationNotAllowed, memoryFailure, invalidMemoryIndex, memoryFull,
    filterNotSupported, dssInstanceLimit, invalidDeviceServiceOperation, authIncorrectAutn,
    authSyncFailure, authAmfNotSet, contextNotSupported, smsUnknownSmscAddress,
    smsNetworkTimeout, smsLangNotSupported, smsEncodingNotSupported, smsFormatNotSupported]

/-- The code and the name in diagnostics. -/
def entry : Status → UInt32 × String
  | success => (0, "none")
  | busy => (1, "busy")
  | failure => (2, "failure")
  | simNotInserted => (3, "sim-not-inserted")
  | badSim => (4, "bad-sim")
  | pinRequired => (5, "pin-required")
  | pinDisabled => (6, "pin-disabled")
  | notRegistered => (7, "not-registered")
  | providersNotFound => (8, "providers-not-found")
  | noDeviceSupport => (9, "no-device-support")
  | providerNotVisible => (10, "provider-not-visible")
  | dataClassNotAvailable => (11, "data-class-not-available")
  | packetServiceDetached => (12, "packet-service-detached")
  | maxActivatedContexts => (13, "max-activated-contexts")
  | notInitialized => (14, "not-initialized")
  | voiceCallInProgress => (15, "voice-call-in-progress")
  | contextNotActivated => (16, "context-not-activated")
  | serviceNotActivated => (17, "service-not-activated")
  | invalidAccessString => (18, "invalid-access-string")
  | invalidUserNamePwd => (19, "invalid-user-name-pwd")
  | radioPowerOff => (20, "radio-power-off")
  | invalidParameters => (21, "invalid-parameters")
  | readFailure => (22, "read-failure")
  | writeFailure => (23, "write-failure")
  | noPhonebook => (25, "no-phonebook")
  | parameterTooLong => (26, "parameter-too-long")
  | stkBusy => (27, "stk-busy")
  | operationNotAllowed => (28, "operation-not-allowed")
  | memoryFailure => (29, "memory-failure")
  | invalidMemoryIndex => (30, "invalid-memory-index")
  | memoryFull => (31, "memory-full")
  | filterNotSupported => (32, "filter-not-supported")
  | dssInstanceLimit => (33, "dss-instance-limit")
  | invalidDeviceServiceOperation => (34, "invalid-device-service-operation")
  | authIncorrectAutn => (35, "auth-incorrect-autn")
  | authSyncFailure => (36, "auth-sync-failure")
  | authAmfNotSet => (37, "auth-amf-not-set")
  | contextNotSupported => (38, "context-not-supported")
  | smsUnknownSmscAddress => (100, "sms-unknown-smsc-address")
  | smsNetworkTimeout => (101, "sms-network-timeout")
  | smsLangNotSupported => (102, "sms-lang-not-supported")
  | smsEncodingNotSupported => (103, "sms-encoding-not-supported")
  | smsFormatNotSupported => (104, "sms-format-not-supported")
  | other c => (c, "(unknown)")

def code (s : Status) : UInt32 := s.entry.1

def name (s : Status) : String := s.entry.2

/-- The named one with code `c`, or `c` itself kept. -/
def ofCode (c : UInt32) : Status := (named.find? fun s => s.code == c).getD (other c)

/-- Whether the request succeeded. -/
def isSuccess : Status → Bool
  | success => true
  | _ => false

@[simp] theorem code_ofCode (c : UInt32) : (ofCode c).code = c := by
  unfold ofCode
  cases h : named.find? fun s => s.code == c with
  | none => rfl
  | some s => simpa using List.find?_some h

/-- A named status is read back from its code. -/
theorem ofCode_code {s : Status} (h : s ∈ named) : ofCode s.code = s := by
  have : ∀ s ∈ named, ofCode s.code = s := by decide
  exact this s h

theorem isSuccess_iff {s : Status} : s.isSuccess ↔ s = success := by
  cases s <;> simp [isSuccess]

end Status

end Mbim
