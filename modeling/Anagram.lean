import Anagram.General.Outcome
import Anagram.General.Interleaving
import Anagram.General.Ring
import Anagram.General.PrunedSearch
import Anagram.General.SearchTrie
import Anagram.General.Lines
import Anagram.Machine
import Anagram.OccupancyHash
import Anagram.HashLaws
import Anagram.Combine
import Anagram.CombineSearch
import Anagram.CombineLaws
import Anagram.CombineRepeats
import Anagram.TernaryTree
import Anagram.TrieShape
import Anagram.TrieInsert
import Anagram.TrieWords
import Anagram.TrieBytes
import Anagram.DictionaryFile
import Anagram.DictionaryLaws
import Anagram.FuzzyFind
import Anagram.FuzzyWrites
import Anagram.ExtrapolateLaws
import Anagram.TieKeys
import Anagram.FuzzyFindLaws
import Anagram.KeyClashes
import Anagram.Gather
import Anagram.GatherLaws
import Anagram.MasterCount
import Anagram.Arguments
import Anagram.ExcludeLaws
import Anagram.General.Traced
import Anagram.General.SearchTurns
import Anagram.HashSteps
import Anagram.CombineSteps
import Anagram.HashStepLaws
import Anagram.ExactCounts
import Anagram.CandidateSlots
import Anagram.TableAccesses
import Anagram.CharTables
import Anagram.GatherSteps
import Anagram.JobSteps
import Anagram.Counters
import Anagram.General.Wrapping
import Anagram.Entries
import Anagram.EntryWrites
import Anagram.Lock
import Anagram.OutputQueue
import Anagram.QueueThreads
import Anagram.QueueShutdown
import Anagram.RunJob
import Anagram.GatherBarrier
import Anagram.JobEnd
import Anagram.HashMeaning
import Anagram.AddedChars
import Anagram.General.EditDistance
import Anagram.LevenshteinLaws
import Anagram.DistanceBound
import Anagram.KeyScores
import Anagram.FifoQueue
import Anagram.ParentLinks
import Anagram.WordReads
import Anagram.PrintedRows
import Anagram.PushedTexts
import Anagram.SearchJob
import Anagram.SearchJobEnds
import Anagram.GatherLog
import Anagram.SubsetRows
import Anagram.ThreadFinds
import Anagram.DirectOutput
import Anagram.Program
import Anagram.Answers
import Anagram.ProgramRuns
import Anagram.General.EditScripts
import Anagram.General.TriePlaces
import Anagram.General.TrieHeight
import Anagram.TrieNodes
import Anagram.ArgumentLaws
import Anagram.QueueOrder
import Anagram.HighWatermark
import Anagram.TrieDepth
import Anagram.ProgressMessages
import Anagram.SharedWorld
import Anagram.QueueClients
import Anagram.QueuedJob
import Anagram.QueuedJobEnds
import Anagram.QueuedRuns
