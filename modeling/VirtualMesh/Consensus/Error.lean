/-!
# Errors of engines

An engine that refuses a message, or cannot work at all, gives one of the causes below. Each
belongs to a phase of the agreement protocol. Nothing here is inspected on the way: peers hand
messages over and forget the verdict.
-/

namespace VirtualMesh

inductive ErrorPhase where
  | config
  | message
  | roundChange
  | lock
  | select
  | decide
  | lockRelease
  | commit
  deriving DecidableEq

inductive ConsensusError where
  | configEpoch
  | configStateMissing
  | configStateCompare
  | configStateValidate
  | configPrivateKey
  | configParticipants
  | configPubKeyToIdentity
  | messageVersion
  | messageValidator
  | messageIsEmpty
  | messageUnknownMessageType
  | messageSignature
  | messageUnknownParticipant
  | roundChangeHeightMismatch
  | roundChangeRoundLower
  | roundChangeStateValidation
  | lockEmptyState
  | lockStateValidation
  | lockHeightMismatch
  | lockRoundLower
  | lockNotSignedByLeader
  | lockProofUnknownParticipant
  | lockProofTypeMismatch
  | lockProofHeightMismatch
  | lockProofRoundMismatch
  | lockProofStateValidation
  | lockProofInsufficient
  | selectStateValidation
  | selectHeightMismatch
  | selectRoundLower
  | selectNotSignedByLeader
  | selectStateMismatch
  | selectProofUnknownParticipant
  | selectProofTypeMismatch
  | selectProofHeightMismatch
  | selectProofRoundMismatch
  | selectProofStateValidation
  | selectProofNotTheMaximal
  | selectProofInsufficient
  | selectProofExceeded
  | decideHeightLower
  | decideEmptyState
  | decideStateValidation
  | decideNotSignedByLeader
  | decideProofUnknownParticipant
  | decideProofTypeMismatch
  | decideProofHeightMismatch
  | decideProofRoundMismatch
  | decideProofStateValidation
  | decideProofInsufficient
  | mismatchedTargetState
  | lockReleaseStatus
  | commitEmptyState
  | commitStateMismatch
  | commitStateValidation
  | commitStatus
  | commitHeightMismatch
  | commitRoundMismatch
  deriving DecidableEq

namespace ErrorPhase

def all : List ErrorPhase :=
  [.config, .message, .roundChange, .lock, .select, .decide, .lockRelease, .commit]

theorem mem_all (p : ErrorPhase) : p ∈ all := by cases p <;> decide

/-- The name that stands for the phase in data. -/
def name : ErrorPhase → String
  | .config => "Config"
  | .message => "Message"
  | .roundChange => "RoundChange"
  | .lock => "Lock"
  | .select => "Select"
  | .decide => "Decide"
  | .lockRelease => "LockRelease"
  | .commit => "Commit"

/-- The name of the phase in running text. -/
def text : ErrorPhase → String
  | .config => "config"
  | .message => "message"
  | .roundChange => "roundchange"
  | .lock => "lock"
  | .select => "select"
  | .decide => "decide"
  | .lockRelease => "lock-release"
  | .commit => "commit"

def ofName? (n : String) : Option ErrorPhase := all.find? fun p => p.name = n

end ErrorPhase

namespace ConsensusError

def all : List ConsensusError :=
  [.configEpoch, .configStateMissing, .configStateCompare, .configStateValidate,
    .configPrivateKey, .configParticipants, .configPubKeyToIdentity, .messageVersion,
    .messageValidator, .messageIsEmpty, .messageUnknownMessageType, .messageSignature,
    .messageUnknownParticipant, .roundChangeHeightMismatch, .roundChangeRoundLower,
    .roundChangeStateValidation, .lockEmptyState, .lockStateValidation, .lockHeightMismatch,
    .lockRoundLower, .lockNotSignedByLeader, .lockProofUnknownParticipant, .lockProofTypeMismatch,
    .lockProofHeightMismatch, .lockProofRoundMismatch, .lockProofStateValidation,
    .lockProofInsufficient, .selectStateValidation, .selectHeightMismatch, .selectRoundLower,
    .selectNotSignedByLeader, .selectStateMismatch, .selectProofUnknownParticipant,
    .selectProofTypeMismatch, .selectProofHeightMismatch, .selectProofRoundMismatch,
    .selectProofStateValidation, .selectProofNotTheMaximal, .selectProofInsufficient,
    .selectProofExceeded, .decideHeightLower, .decideEmptyState, .decideStateValidation,
    .decideNotSignedByLeader, .decideProofUnknownParticipant, .decideProofTypeMismatch,
    .decideProofHeightMismatch, .decideProofRoundMismatch, .decideProofStateValidation,
    .decideProofInsufficient, .mismatchedTargetState, .lockReleaseStatus, .commitEmptyState,
    .commitStateMismatch, .commitStateValidation, .commitStatus, .commitHeightMismatch,
    .commitRoundMismatch]

theorem mem_all (e : ConsensusError) : e ∈ all := by cases e <;> decide

/-- The name that stands for the error in data. -/
def name : ConsensusError → String
  | .configEpoch => "ConfigEpoch"
  | .configStateMissing => "ConfigStateMissing"
  | .configStateCompare => "ConfigStateCompare"
  | .configStateValidate => "ConfigStateValidate"
  | .configPrivateKey => "ConfigPrivateKey"
  | .configParticipants => "ConfigParticipants"
  | .configPubKeyToIdentity => "ConfigPubKeyToIdentity"
  | .messageVersion => "MessageVersion"
  | .messageValidator => "MessageValidator"
  | .messageIsEmpty => "MessageIsEmpty"
  | .messageUnknownMessageType => "MessageUnknownMessageType"
  | .messageSignature => "MessageSignature"
  | .messageUnknownParticipant => "MessageUnknownParticipant"
  | .roundChangeHeightMismatch => "RoundChangeHeightMismatch"
  | .roundChangeRoundLower => "RoundChangeRoundLower"
  | .roundChangeStateValidation => "RoundChangeStateValidation"
  | .lockEmptyState => "LockEmptyState"
  | .lockStateValidation => "LockStateValidation"
  | .lockHeightMismatch => "LockHeightMismatch"
  | .lockRoundLower => "LockRoundLower"
  | .lockNotSignedByLeader => "LockNotSignedByLeader"
  | .lockProofUnknownParticipant => "LockProofUnknownParticipant"
  | .lockProofTypeMismatch => "LockProofTypeMismatch"
  | .lockProofHeightMismatch => "LockProofHeightMismatch"
  | .lockProofRoundMismatch => "LockProofRoundMismatch"
  | .lockProofStateValidation => "LockProofStateValidation"
  | .lockProofInsufficient => "LockProofInsufficient"
  | .selectStateValidation => "SelectStateValidation"
  | .selectHeightMismatch => "SelectHeightMismatch"
  | .selectRoundLower => "SelectRoundLower"
  | .selectNotSignedByLeader => "SelectNotSignedByLeader"
  | .selectStateMismatch => "SelectStateMismatch"
  | .selectProofUnknownParticipant => "SelectProofUnknownParticipant"
  | .selectProofTypeMismatch => "SelectProofTypeMismatch"
  | .selectProofHeightMismatch => "SelectProofHeightMismatch"
  | .selectProofRoundMismatch => "SelectProofRoundMismatch"
  | .selectProofStateValidation => "SelectProofStateValidation"
  | .selectProofNotTheMaximal => "SelectProofNotTheMaximal"
  | .selectProofInsufficient => "SelectProofInsufficient"
  | .selectProofExceeded => "SelectProofExceeded"
  | .decideHeightLower => "DecideHeightLower"
  | .decideEmptyState => "DecideEmptyState"
  | .decideStateValidation => "DecideStateValidation"
  | .decideNotSignedByLeader => "DecideNotSignedByLeader"
  | .decideProofUnknownParticipant => "DecideProofUnknownParticipant"
  | .decideProofTypeMismatch => "DecideProofTypeMismatch"
  | .decideProofHeightMismatch => "DecideProofHeightMismatch"
  | .decideProofRoundMismatch => "DecideProofRoundMismatch"
  | .decideProofStateValidation => "DecideProofStateValidation"
  | .decideProofInsufficient => "DecideProofInsufficient"
  | .mismatchedTargetState => "MismatchedTargetState"
  | .lockReleaseStatus => "LockReleaseStatus"
  | .commitEmptyState => "CommitEmptyState"
  | .commitStateMismatch => "CommitStateMismatch"
  | .commitStateValidation => "CommitStateValidation"
  | .commitStatus => "CommitStatus"
  | .commitHeightMismatch => "CommitHeightMismatch"
  | .commitRoundMismatch => "CommitRoundMismatch"

def message : ConsensusError → String
  | .configEpoch => "config epoch has not been set"
  | .configStateMissing => "config current state has not been set"
  | .configStateCompare => "config state compare function has not been set"
  | .configStateValidate => "config state validate function has not been set"
  | .configPrivateKey => "config private key has not been set"
  | .configParticipants => "config participants must contain at least 4 participants"
  | .configPubKeyToIdentity => "config public key to identity function has not been set"
  | .messageVersion => "the message has a different version"
  | .messageValidator => "the message has been rejected by external validator"
  | .messageIsEmpty => "the message being verified is empty"
  | .messageUnknownMessageType => "unrecognized message type"
  | .messageSignature => "cannot verify the signature of this message"
  | .messageUnknownParticipant => "the message is from an unknown participant"
  | .roundChangeHeightMismatch => "the <roundchange> message has another height than expected"
  | .roundChangeRoundLower => "the <roundchange> message has lower round than expected"
  | .roundChangeStateValidation => "the state data validation failed in <roundchange> message"
  | .lockEmptyState => "the state is empty in <lock> message"
  | .lockStateValidation => "the state data validation failed in <lock> message"
  | .lockHeightMismatch => "the <lock> message has another height than expected"
  | .lockRoundLower => "the <lock> message has lower round than expected"
  | .lockNotSignedByLeader => "the <lock> message is not signed by leader"
  | .lockProofUnknownParticipant => "the proofs in <lock> message have an unknown participant"
  | .lockProofTypeMismatch => "the proofs in <lock> message are not <roundchange>"
  | .lockProofHeightMismatch => "the proofs in <lock> message have mismatched height"
  | .lockProofRoundMismatch => "the proofs in <lock> message have mismatched round"
  | .lockProofStateValidation => "the proofs in <lock> message have invalid state data"
  | .lockProofInsufficient => "the <lock> message has insufficient <roundchange> proofs for the proposed state"
  | .selectStateValidation => "the state data validation failed in <select> message"
  | .selectHeightMismatch => "the <select> message has another height than expected"
  | .selectRoundLower => "the <select> message has lower round than expected"
  | .selectNotSignedByLeader => "the <select> message is not signed by leader"
  | .selectStateMismatch => "the <select> message has no state but its proof contains a state"
  | .selectProofUnknownParticipant => "the proofs in <select> message have an unknown participant"
  | .selectProofTypeMismatch => "the proofs in <select> message are not <roundchange>"
  | .selectProofHeightMismatch => "the proofs in <select> message have mismatched height"
  | .selectProofRoundMismatch => "the proofs in <select> message have mismatched round"
  | .selectProofStateValidation => "the proofs in <select> message have invalid state data"
  | .selectProofNotTheMaximal => "the proposed state is not the maximal one in the <select> message"
  | .selectProofInsufficient => "the <select> message has insufficient overall proofs"
  | .selectProofExceeded => "the <select> message overall state proposals exceeded maximal"
  | .decideHeightLower => "the <decide> message has lower height than expected"
  | .decideEmptyState => "the state is empty in <decide> message"
  | .decideStateValidation => "the state data validation failed in <decide> message"
  | .decideNotSignedByLeader => "the <decide> message is not signed by leader"
  | .decideProofUnknownParticipant => "the proofs in <decide> message have an unknown participant"
  | .decideProofTypeMismatch => "the proofs in <decide> message are not <commit>"
  | .decideProofHeightMismatch => "the proofs in <decide> message have mismatched height"
  | .decideProofRoundMismatch => "the proofs in <decide> message have mismatched round"
  | .decideProofStateValidation => "the proofs in <decide> message have invalid state data"
  | .decideProofInsufficient => "the <decide> message has insufficient <commit> proofs for the proposed state"
  | .mismatchedTargetState => "the state in <decide> message does not match the provided target state"
  | .lockReleaseStatus => "received <lock-release> message in non LOCK-RELEASE state"
  | .commitEmptyState => "the state is empty in <commit> message"
  | .commitStateMismatch => "the state in <commit> message does not match what leader has locked"
  | .commitStateValidation => "the state data validation failed in <commit> message"
  | .commitStatus => "received <commit> message in non COMMIT state"
  | .commitHeightMismatch => "the <commit> message has another height than expected"
  | .commitRoundMismatch => "the <commit> message is from another round"

def phase : ConsensusError → ErrorPhase
  | .configEpoch | .configStateMissing | .configStateCompare | .configStateValidate |
    .configPrivateKey | .configParticipants | .configPubKeyToIdentity => .config
  | .messageVersion | .messageValidator | .messageIsEmpty | .messageUnknownMessageType |
    .messageSignature | .messageUnknownParticipant => .message
  | .roundChangeHeightMismatch | .roundChangeRoundLower | .roundChangeStateValidation =>
    .roundChange
  | .lockEmptyState | .lockStateValidation | .lockHeightMismatch | .lockRoundLower |
    .lockNotSignedByLeader | .lockProofUnknownParticipant | .lockProofTypeMismatch |
    .lockProofHeightMismatch | .lockProofRoundMismatch | .lockProofStateValidation |
    .lockProofInsufficient => .lock
  | .selectStateValidation | .selectHeightMismatch | .selectRoundLower | .selectNotSignedByLeader
    | .selectStateMismatch | .selectProofUnknownParticipant | .selectProofTypeMismatch |
    .selectProofHeightMismatch | .selectProofRoundMismatch | .selectProofStateValidation |
    .selectProofNotTheMaximal | .selectProofInsufficient | .selectProofExceeded => .select
  | .decideHeightLower | .decideEmptyState | .decideStateValidation | .decideNotSignedByLeader |
    .decideProofUnknownParticipant | .decideProofTypeMismatch | .decideProofHeightMismatch |
    .decideProofRoundMismatch | .decideProofStateValidation | .decideProofInsufficient |
    .mismatchedTargetState => .decide
  | .lockReleaseStatus => .lockRelease
  | .commitEmptyState | .commitStateMismatch | .commitStateValidation | .commitStatus |
    .commitHeightMismatch | .commitRoundMismatch => .commit

def ofName? (n : String) : Option ConsensusError := all.find? fun e => e.name = n

end ConsensusError

end VirtualMesh
