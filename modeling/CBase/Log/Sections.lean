import CBase.Info
import CBase.Lib.Run

/-!
# The logger as its critical sections

A log call takes the logger mutex twice: once to copy the configuration, once to write the line.
The line is formatted in between, without the mutex. Every setter is one section. This module has
the sections as functions on the logger state, and the transition relation in which any number of
threads interleave them.

A `FILE *` is a handle that is compared and never inspected. How many bytes an `fwrite` takes is an
input of the emit section.
-/

namespace CBase.Log

/-- A non-NULL `FILE *`. -/
abbrev File := Nat

inductive Level where
  | trace | debug | info | warn | error | fatal | off
  deriving DecidableEq, Repr

/-- The value of a level in the C enumeration. -/
def Level.rank : Level → Nat
  | .trace => 0 | .debug => 1 | .info => 2 | .warn => 3 | .error => 4 | .fatal => 5 | .off => 6

/-- The static struct `cb__log`, less the mutex and the once-flag. -/
structure State where
  minLevel : Level
  useColor : Bool
  timestamps : Bool
  fileSink : Option File
  startNs : UInt64
  lastError : Info
  deriving DecidableEq, Repr

/-- `cb__log_do_init`. Whether stderr is a terminal and the clock come from outside. -/
def doInit (stderrIsTty : Bool) (now : UInt64) : State where
  minLevel := .info
  useColor := stderrIsTty
  timestamps := true
  fileSink := none
  startNs := now
  lastError := .ok

/-- What a log call copies in its first section. -/
structure Snapshot where
  minLevel : Level
  useColor : Bool
  timestamps : Bool
  fileSink : Option File
  startNs : UInt64
  deriving DecidableEq, Repr

/-- First section of `cb_log`: copy the configuration. -/
def snapshot (s : State) : Snapshot :=
  ⟨s.minLevel, s.useColor, s.timestamps, s.fileSink, s.startNs⟩

/-- The test between the sections: `level < min_level || min_level >= CB_LOG_OFF` ends the call. -/
def Snapshot.filtered (c : Snapshot) (level : Level) : Bool :=
  level.rank < c.minLevel.rank || c.minLevel.rank ≥ Level.off.rank

inductive Target where
  | stderr
  | file (f : File)
  deriving DecidableEq, Repr

/-- One `fwrite`: its stream, the bytes it was given and how many of them it took. -/
structure Write where
  target : Target
  bytes : List UInt8
  taken : Nat
  deriving DecidableEq, Repr

/-- A write is short when the stream took fewer bytes than it was given. -/
def Write.short (w : Write) : Bool := w.taken < w.bytes.length

/-- Record a short write, unless an earlier failure is still recorded. -/
def noteWrite (s : State) (w : Write) : State :=
  if w.short && s.lastError = .ok then { s with lastError := .logWriteFailed } else s

/-- Second section of `cb_log`: write the line to stderr, and to the file sink of the snapshot when
it has one. `stderrTaken` and `fileTaken` are what the two `fwrite` calls return. -/
def emit (s : State) (c : Snapshot) (stderrBuf plain : List UInt8) (stderrTaken fileTaken : Nat) :
    State × List Write :=
  let w : Write := ⟨.stderr, stderrBuf, stderrTaken⟩
  let s := noteWrite s w
  match c.fileSink with
  | none => (s, [w])
  | some f =>
    let wf : Write := ⟨.file f, plain, fileTaken⟩
    (noteWrite s wf, [w, wf])

def setLevel (s : State) (l : Level) : State := { s with minLevel := l }

def setColor (s : State) (b : Bool) : State := { s with useColor := b }

def setTimestamps (s : State) (b : Bool) : State := { s with timestamps := b }

def setFileSink (s : State) (f : Option File) : State := { s with fileSink := f }

def clearLastError (s : State) : State := { s with lastError := .ok }

/-! ## Interleaving -/

/-- Where a thread is: outside the logger, or in a log call between its two sections. -/
inductive Phase where
  | idle
  | formatting (c : Snapshot)
  deriving DecidableEq, Repr

/-- The logger and the threads that use it. -/
structure World (θ : Type) where
  log : State
  phase : θ → Phase

/-- The logger after its initialisation, with every thread outside it. -/
def World.init (θ : Type) (stderrIsTty : Bool) (now : UInt64) : World θ :=
  ⟨doInit stderrIsTty now, fun _ => .idle⟩

/-- A section, the thread that runs it and what it writes. -/
inductive Label (θ : Type) where
  | begin (t : θ) (level : Level)
  | emit (t : θ) (writes : List Write)
  | setFileSink (t : θ) (f : Option File)
  | setLevel (t : θ) (l : Level)
  | setColor (t : θ) (b : Bool)
  | setTimestamps (t : θ) (b : Bool)
  | lastError (t : θ) (answer : Info)
  | clearLastError (t : θ)

/-- The interleavings: a thread outside the logger may start any call, and a thread inside a log
call may run its second section with any formatted line. -/
inductive Step {θ : Type} [DecidableEq θ] (w : World θ) : Label θ → World θ → Prop
  | beginDropped {t : θ} {level : Level} :
      w.phase t = .idle → (snapshot w.log).filtered level = true → Step w (.begin t level) w
  | begin {t : θ} {level : Level} :
      w.phase t = .idle → (snapshot w.log).filtered level = false →
      Step w (.begin t level)
        { w with phase := fun u => if u = t then .formatting (snapshot w.log) else w.phase u }
  -- setters of other threads may have run since the snapshot
  | emit {t : θ} {c : Snapshot} {stderrBuf plain : List UInt8} {n m : Nat} :
      w.phase t = .formatting c →
      Step w (.emit t (Log.emit w.log c stderrBuf plain n m).2)
        { log := (Log.emit w.log c stderrBuf plain n m).1
          phase := fun u => if u = t then .idle else w.phase u }
  | setFileSink {t : θ} {f : Option File} :
      w.phase t = .idle →
      Step w (.setFileSink t f) { w with log := Log.setFileSink w.log f }
  | setLevel {t : θ} {l : Level} :
      w.phase t = .idle → Step w (.setLevel t l) { w with log := Log.setLevel w.log l }
  | setColor {t : θ} {b : Bool} :
      w.phase t = .idle → Step w (.setColor t b) { w with log := Log.setColor w.log b }
  | setTimestamps {t : θ} {b : Bool} :
      w.phase t = .idle → Step w (.setTimestamps t b) { w with log := Log.setTimestamps w.log b }
  | lastError {t : θ} :
      w.phase t = .idle → Step w (.lastError t w.log.lastError) w
  | clearLastError {t : θ} :
      w.phase t = .idle → Step w (.clearLastError t) { w with log := Log.clearLastError w.log }

end CBase.Log
