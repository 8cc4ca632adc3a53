import Raticode.OrderedDict
import Raticode.Components
import Raticode.Occurrences
import Raticode.Fixpoint
import Raticode.Scan
import Raticode.Attempt
import Raticode.Lockstep
import Raticode.SpanTree
import Raticode.PyText
import Raticode.PyJson
import Raticode.RattishValue
import Raticode.RattishAst
import Raticode.RattishLexer
import Raticode.RattishTerms
import Raticode.RattishParser
import Raticode.RattishRecovery
import Raticode.RattishUnplaced
import Raticode.RattishSpans
import Raticode.RattishCursor
import Raticode.RattishBlocks
import Raticode.RattishFidelity
import Raticode.RattishWalk
import Raticode.RattishWalkEntries
import Raticode.RattishTaken
import Raticode.RattishTransparent
import Raticode.RattishRecovering
import Raticode.RattishTemplate
import Raticode.RattishRendering
import Raticode.RattishSchema
import Raticode.RattishSchemaCompat
import Raticode.RattishSchemaSound
import Raticode.RattishAssignable
import Raticode.RattishIR
import Raticode.RattishBinding
import Raticode.RattishResolve
import Raticode.RattishDuplicates
import Raticode.RattishFailureRoutes
import Raticode.RattishScheduler
import Raticode.RattishRun
import Raticode.RattishTransitions
import Raticode.RattishNaming
import Raticode.RattishMicro
import Raticode.RattishWellFormed
import Raticode.RattishLatch
import Raticode.RattishQueues
import Raticode.RattishAccounting
import Raticode.RattishOutcome
import Raticode.RattishBreak
import Raticode.RattishUnlock
import Raticode.RattishConcurrency
import Raticode.RattishLimits
import Raticode.RattishRefill
import Raticode.RattishIterations
import Raticode.RattishErase
import Raticode.RattishReplay
import Raticode.RattishGraph
import Raticode.RattishContexts
import Raticode.RattishGuaranteed
import Raticode.PyDocument
import Raticode.Resequence
import Raticode.DeviceFraming
import Raticode.DeviceCarrier
import Raticode.DeviceRecords
import Raticode.DeviceRegistry
import Raticode.DeviceTrust
import Raticode.DeviceSession
import Raticode.DeviceSessionTrust
import Raticode.DeviceStore
import Raticode.DeviceInbox
import Raticode.DeviceWork
import Raticode.DeviceDispatch
import Raticode.DeviceClaim
import Raticode.DeviceChat
import Raticode.Guarded
import Raticode.DeviceRemote
import Raticode.Unseen
import Raticode.DeviceWorkspace
import Raticode.DeviceHidden
import Raticode.SealedRecords
import Raticode.DeviceFiles
import Raticode.DeviceFileRecords
import Raticode.DeviceFileKeeping
import Raticode.DeviceFileRuns
import Raticode.SharedCell
import Raticode.ApprovalStore
import Raticode.ApprovalFinality
import Raticode.ApprovalGate
import Raticode.ChatSteering
import Raticode.ChatSteeringRuns
import Raticode.ShellScript
import Raticode.CommandSlots
import Raticode.CommandSlotsAgree
import Raticode.MarkedList
import Raticode.OrganizationConfig
import Raticode.OrganizationTasks
import Raticode.OrganizationCalls
import Raticode.OrganizationRuns
import Raticode.OrganizationBlocks
import Raticode.OrganizationBlockRuns
import Raticode.OrganizationReview
import Raticode.OrganizationReviewRuns
import Raticode.OrganizationConsent
import Raticode.DepthFirst
import Raticode.OrganizationGraph
import Raticode.OrganizationCompany
import Raticode.OrganizationRoutines
import Raticode.OrganizationDispatch
import Raticode.OrganizationTurns
import Raticode.OrganizationEvents
import Raticode.OrganizationChanges
import Raticode.OrganizationMoves
import Raticode.OrganizationDeeds
import Raticode.OrganizationGraphRuns
import Raticode.OrganizationApproval
import Raticode.OrganizationDelegation
import Raticode.OrganizationLinks
import Raticode.OrganizationReferences
import Raticode.OrganizationWorkers
import Raticode.RattishLiterals
import Raticode.RattishTokens
import Raticode.RattishBundleImports
import Raticode.RemHomeRuns
import Raticode.RattishRoundTrip
import Raticode.RattishRedaction
import Raticode.RattishCanonical
import Raticode.OrganizationRehearsal
import Raticode.OrganizationHours
import Raticode.PyDigits
import Raticode.DeviceFrames
import Raticode.PyWriting
import Raticode.DevicePaging
import Raticode.DeviceSearching
import Raticode.DeviceInvitations
import Raticode.DeviceInvitationUris
import Raticode.DeviceSharing
import Raticode.DeviceDeletions
import Raticode.RattishDominators
import Raticode.RattishBundleNames
import Raticode.RattishLines
import Raticode.NetworkPolicy
import Raticode.RattishGroups
import Raticode.Fuelled
import Raticode.StructuredOutput
import Raticode.StructuredOutputReturns
import Raticode.Pages
import Raticode.RemConversation
import Raticode.SwarmStore
import Raticode.SwarmHistory
import Raticode.OrganizationRequests
import Raticode.OrganizationRevocation
import Raticode.OrganizationAudit
import Raticode.DeviceTransport
