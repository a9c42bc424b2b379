import SeccapBank.Account
import SeccapBank.General.Buffer
import SeccapBank.General.Delimited
import SeccapBank.General.Run
import SeccapBank.AccountListFormat
import SeccapBank.Sealing
import SeccapBank.DealManager
import SeccapBank.General.Ledger
import SeccapBank.Enclave
import SeccapBank.EnclaveLedger
import SeccapBank.EnclaveInit
import SeccapBank.LedgerExactness
import SeccapBank.ClearSealing
import SeccapBank.Authentication
import SeccapBank.AccountListStore
import SeccapBank.Durability
import SeccapBank.AccountIdentity
import SeccapBank.StorageForgery
import SeccapBank.InterruptedStore
import SeccapBank.General.Decimal
import SeccapBank.ServerRequest
import SeccapBank.Server
import SeccapBank.RequestText
import SeccapBank.Segmentation
import SeccapBank.Client
import SeccapBank.ClientRequests
import SeccapBank.RequestAgreement
import SeccapBank.ServerRuns
import SeccapBank.RejectedStorage
import SeccapBank.RequestGrammar
import SeccapBank.AmountTransfer
import SeccapBank.ClientReplies
import SeccapBank.ReplyRuns
import SeccapBank.Conversation
import SeccapBank.AccountListWrites
import SeccapBank.LoaderBounds
import SeccapBank.EcallOrder
import SeccapBank.ServerEnd
import SeccapBank.EnclaveMachine
import SeccapBank.BalanceSecrecy
import SeccapBank.HostileStorage
import SeccapBank.FrontDesk
import SeccapBank.CustomerView
import SeccapBank.ServerLives
import SeccapBank.Startup
import SeccapBank.General.Book
import SeccapBank.CustomerOrder
import SeccapBank.CustomerVisits
