import PortExpander.Word.FlagSet

/-!
# The status word

Clients, interrupt lines and the worker ask for work by setting flags in one shared word. A pass takes all of them at
once and leaves `busy` behind, so that what is asked for during the pass is still in the word when the pass is over.
-/

namespace PortExpander

/-- Work that is asked for, and whether a pass is at work. -/
abbrev Status := FlagSet 8

namespace Status

/-- Directions and polarities have to be written. -/
def configDirty : Status := .flag 0

/-- The worker has to halt. -/
def stop : Status := .flag 1

/-- Outputs have to be written. -/
def writeDirty : Status := .flag 2

/-- Inputs have to be read. -/
def readDirty : Status := .flag 3

/-- A pass has taken the word and has not released it. -/
def busy : Status := .flag 4

/-- An interrupt line has reported a change. -/
def isrPending : Status := .flag 5

/-- Everything has to be written and read again. -/
def resync : Status := configDirty ∪ writeDirty ∪ readDirty

/-- The names of the flags. -/
def vocabulary : Vocabulary 8 where
  title := "Status"
  flags := [("CONFIG_DIRTY", configDirty), ("STOP", stop), ("WRITE_DIRTY", writeDirty), ("READ_DIRTY", readDirty),
    ("BUSY", busy), ("ISR_PENDING", isrPending)]

/-- The work a word asks for. -/
def pending (word : Status) : Status := vocabulary.truncate word \ busy

/-- The word once a pass has released it. -/
def release (word : Status) : Status := word \ busy

end Status

end PortExpander
