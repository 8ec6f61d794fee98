import Bisen.Lib.Wire
import Bisen.Lib.Socket
import Bisen.Lib.Postfix
import Bisen.Lib.Shuffle
import Bisen.QueryEvaluator
import Bisen.QueryParser
import Bisen.SseClient
import Bisen.SseServer
import Bisen.SseIee
import Bisen.QueryMessage
import Bisen.Retrieval
import Bisen.Leakage
import Bisen.Indexing
import Bisen.CounterReuse
import Bisen.HonestRetrieval
import Bisen.Session
import Bisen.Reference
import Bisen.EndToEnd
import Bisen.Integrity
import Bisen.QueryExits
import Bisen.Ranking
import Bisen.SharedSocket
import Bisen.QueryMeaning
import Bisen.PrintedQuery
import Bisen.Parentheses
import Bisen.EvaluatorSets
import Bisen.FetchedLists
import Bisen.BulkUpdate
import Bisen.StorageRuns
import Bisen.TlsConnection
import Bisen.EnglishAnalyzer
import Bisen.ArrayScoring
import Bisen.Isolation
import Bisen.OperandOrder
import Bisen.TokenStack
import Bisen.HmacSha256
import Bisen.SendAll
import Bisen.ReceiveAll
import Bisen.WikiDocuments
import Bisen.ThreadProgress
import Bisen.StemmedText
import Bisen.StorageHeap
import Bisen.TextSearch
import Bisen.TlsProgram
import Bisen.ExactLeakage
import Bisen.DatasetFiles
import Bisen.TextRanking
