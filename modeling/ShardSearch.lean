import ShardSearch.Stream.Cursor
import ShardSearch.Query.IndexSource
import ShardSearch.Query.LeafTable
import ShardSearch.Config.Document
import ShardSearch.Proofs.Soundness
import ShardSearch.Proofs.Answers
import ShardSearch.Proofs.PutOff
import ShardSearch.Proofs.Threshold
import ShardSearch.Proofs.Rescripting
import ShardSearch.Proofs.FactBook
import ShardSearch.Proofs.DayRange
import ShardSearch.Proofs.ErrorFree
import ShardSearch.Proofs.Distribution
import ShardSearch.Proofs.Regrouping
import ShardSearch.Proofs.Classification
import ShardSearch.Proofs.Interleaving
import ShardSearch.Proofs.Loops
import ShardSearch.Proofs.Returning
import ShardSearch.Proofs.Consumption
import ShardSearch.Proofs.ReadingAhead
import ShardSearch.Proofs.Decorating
import ShardSearch.Proofs.Descendants
import ShardSearch.Proofs.Requests
import ShardSearch.Proofs.Below
import ShardSearch.Proofs.Growth
import ShardSearch.Proofs.Recording
import ShardSearch.Proofs.PlainLines
import ShardSearch.Proofs.Settings
import ShardSearch.Proofs.DayBounds
import ShardSearch.Proofs.WeakestContext
import ShardSearch.Stream.Slotted
import ShardSearch.Proofs.Slots
import ShardSearch.Proofs.LeafCounts
