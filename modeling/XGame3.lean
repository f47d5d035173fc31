import XGame3.Spec.CircleBufferThreadsCorrect
import XGame3.Spec.CircleBufferCorrupt
import XGame3.Spec.CircleBufferRecovery
import XGame3.Spec.CircleBufferSizes
import XGame3.Spec.HttpJobsOnce
import XGame3.Spec.HttpRequestReuse
import XGame3.Spec.HttpSessionCorrect
import XGame3.Spec.HttpShutdown
import XGame3.Spec.ResponseBlobCorrect
import XGame3.Spec.IbusLayout
import XGame3.Native.PathFinder
import XGame3.Spec.PathFinderForest
import XGame3.Spec.PathFinderTags
import XGame3.Spec.AStarReachable
import XGame3.Spec.AStarLinks
import XGame3.Spec.AStarLegal
import XGame3.Spec.AStarShortest
import XGame3.Spec.PathFinderEndpoints
import XGame3.Spec.PathFinderLegal
import XGame3.Spec.PathFinderReconnect
import XGame3.Spec.PathFinderHistory
import XGame3.Spec.PathFinderMapOnly
import XGame3.Spec.PathFinderAsked
import XGame3.Spec.PathFinderBudget
import XGame3.Spec.PathFinderOpen
import XGame3.Spec.PathFinderStraightWay
import XGame3.Spec.PathFinderNearest
import XGame3.Spec.PathFinderFallback
import XGame3.Spec.IbusReread
import XGame3.Spec.IbusIsolated
import XGame3.Spec.HttpHeaderCorrect
import XGame3.Spec.HttpRouting
import XGame3.Spec.ResponseBlobBounds
import XGame3.Spec.CountDownLatchCorrect
import XGame3.Spec.GraphCorrect
import XGame3.Spec.PathFinderRecord
import XGame3.Spec.IbusQueues
import XGame3.Spec.IbusClearChannel
import XGame3.Spec.IbusThreadsCorrect
import XGame3.Spec.HttpWorkerAnswers
import XGame3.Spec.HttpSessions
import XGame3.Spec.CircleBufferPushPopCorrect
import XGame3.Spec.GraphAccuracy
import XGame3.Spec.PathFinderPointers
import XGame3.Spec.PathFinderElsewhere
