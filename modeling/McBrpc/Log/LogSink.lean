import Mathlib.Data.Nat.Notation

/-!
# Log sinks

The settings that both log sinks are built with, and what they send to `stderr`.
-/

namespace McBrpc

/-- The `LOG_TO_FILE` bit of a logging destination. -/
def logToFile : Nat := 1 <<< 0

/-- The `LOG_TO_SYSTEM_DEBUG_LOG` bit of a logging destination. -/
def logToSystemDebugLog : Nat := 1 <<< 1

/-- The members of `LoggingSettings` that a sink keeps. -/
structure LoggingSettings where
  loggingDest : Nat
  logFile : String

namespace LoggingSettings

variable (settings : LoggingSettings)

/-- `OnLogMessage` writes to the log file. -/
def ToFile : Prop := settings.loggingDest &&& logToFile ≠ 0

instance : Decidable settings.ToFile :=
  inferInstanceAs (Decidable (_ ≠ _))

/-- What `OnLogMessage` sends to `stderr`. -/
def debugLog (logContent : List UInt8) : List UInt8 :=
  if settings.loggingDest &&& logToSystemDebugLog ≠ 0 then logContent else []

/-- What `Init` sends to `stderr` when it cannot open the log file. -/
def failToInit : List UInt8 :=
  ("Fail to init log, file:" ++ settings.logFile ++ "\n").toUTF8.toList

end LoggingSettings

def fileSettings : LoggingSettings := ⟨logToFile, "mc.log"⟩

theorem toFile_fileSettings : fileSettings.ToFile := by decide

end McBrpc
