import LivioArk.Library.Transition
import LivioArk.Library.QueueLog
import LivioArk.Library.SerialTrace
import LivioArk.Msgbus.LockFreeQueue
import LivioArk.Msgbus.QueueInvariant
import LivioArk.Msgbus.QueueSafety
import LivioArk.Msgbus.MessageBus
import LivioArk.Msgbus.Accounts
import LivioArk.Msgbus.BusSteps
import LivioArk.Msgbus.AtomicBus
import LivioArk.Msgbus.Backpressure
import LivioArk.Msgbus.Accounting
import LivioArk.Msgbus.LostWakeup
import LivioArk.Msgbus.WeakBus
import LivioArk.Msgbus.Acceptance
import LivioArk.Msgbus.Pipeline
import LivioArk.Msgbus.Lanes
import LivioArk.Msgbus.Ordering
import LivioArk.Msgbus.Shutdown
import LivioArk.Msgbus.Capacity
import LivioArk.Msgbus.FailedAccess
import LivioArk.Msgbus.Requests
import LivioArk.Msgbus.FineBus
import LivioArk.Msgbus.Draining
import LivioArk.Msgbus.DropLimit
import LivioArk.Library.Separated
import LivioArk.Library.PrefixTree
import LivioArk.Msgbus.Levels
import LivioArk.Msgbus.TopicMatcher
import LivioArk.Msgbus.WildcardTrie
import LivioArk.Msgbus.TrieIndex
import LivioArk.Msgbus.MatcherAgreement
import LivioArk.Msgbus.TopicRegistry
import LivioArk.Msgbus.Subscriptions
import LivioArk.Msgbus.PatternCheck
import LivioArk.Msgbus.SubStore
import LivioArk.Msgbus.Delivery
import LivioArk.Msgbus.Duplicates
import LivioArk.Msgbus.Dispatching
import LivioArk.Msgbus.AsyncWait
import LivioArk.Msgbus.AsyncWaitCleanup
import LivioArk.Msgbus.AsyncWaitResume
import LivioArk.Msgbus.SubscriptionRaces
import LivioArk.Msgbus.FineRefinement
import LivioArk.Msgbus.QueueProgress
import LivioArk.Msgbus.FineLifetime
import LivioArk.Msgbus.Lifecycle
import LivioArk.Msgbus.Reentrancy
import LivioArk.Library.Holdings
import LivioArk.Msgbus.Message
import LivioArk.Msgbus.Ownership
import LivioArk.Msgbus.PooledBus
import LivioArk.Msgbus.Pooling
import LivioArk.Msgbus.LevelSplitting
import LivioArk.Msgbus.BoundedFifo
import LivioArk.Msgbus.TrieRemoval
import LivioArk.Msgbus.ThrowingDrop
import LivioArk.Msgbus.Wakeup
import LivioArk.Msgbus.MessageHandles
import LivioArk.Msgbus.ObjectPlaces
import LivioArk.Msgbus.MessageOwnership
import LivioArk.Msgbus.MessageLives
import LivioArk.Log.Logging
import LivioArk.Log.LevelCheck
import LivioArk.Log.FirstTouch
import LivioArk.Log.InitFailure
import LivioArk.Log.LogAnswers
import LivioArk.Msgbus.WholeDelivery
import LivioArk.Msgbus.StopReturns
import LivioArk.Msgbus.FairDelivery
