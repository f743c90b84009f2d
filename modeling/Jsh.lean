import Jsh.CommandTree
import Jsh.StaleGlobals
import Jsh.SyntaxErrors
import Jsh.RejectedLines
import Jsh.Prompt
import Jsh.JobTable
import Jsh.Leaving
import Jsh.JobTrees
import Jsh.Announcements
import Jsh.TerminalProperties
import Jsh.ExitCodes
import Jsh.Closing
import Jsh.DescriptorProperties
import Jsh.StringMemory
import Jsh.BackgroundFlags
import Jsh.CommandStrings
import Jsh.WorkingDirectory
import Jsh.PromptText
import Jsh.Children
import Jsh.KillArguments
import Jsh.Usage
import Jsh.LineEnds
import Jsh.IntegerSets
import Jsh.Repetition
import Jsh.WiredStages
import Jsh.LineCommands
import Jsh.Streams
import Jsh.Deeds
import Jsh.BuiltinStreams
import Jsh.DataFlow
import Jsh.LineText
import Jsh.PipeWaits
import Jsh.HandshakeCompletion
import Jsh.HandshakeRuns
import Jsh.DescriptorLeaks
import Jsh.OpenedFiles
import Jsh.ProcessAccounting
import Jsh.JobProcesses
import Jsh.Signals
