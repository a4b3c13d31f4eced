import LayeredConfig.Compose
import LayeredConfig.ConfigMap.Inject
import LayeredConfig.Deployment.File
import LayeredConfig.Logging.Start
import LayeredConfig.Stack
import LayeredConfig.Proofs.Path.Normal
import LayeredConfig.Proofs.Path.Rebase
import LayeredConfig.Proofs.Fold.Appended
import LayeredConfig.Proofs.Fold.Bases
import LayeredConfig.Proofs.Fold.Deduplicated
import LayeredConfig.Proofs.Fold.Contained
import LayeredConfig.Proofs.Fold.Refold
import LayeredConfig.Proofs.Aggregate.Interrupted
import LayeredConfig.Proofs.Aggregate.Joined
import LayeredConfig.Proofs.Aggregate.Search
import LayeredConfig.Proofs.Compose.Classified
import LayeredConfig.Proofs.Compose.Inside
import LayeredConfig.Proofs.Compose.Refill
import LayeredConfig.Proofs.Compose.Twice
import LayeredConfig.Proofs.Deployment.Isolated
import LayeredConfig.Proofs.Deployment.Parameters
import LayeredConfig.Proofs.Deployment.Set
import LayeredConfig.Proofs.Deployment.Store
import LayeredConfig.Proofs.Edit.Store
import LayeredConfig.Proofs.Edit.Interleave
import LayeredConfig.Proofs.Edit.Retried
import LayeredConfig.Proofs.Fold.Apart
import LayeredConfig.Proofs.Fold.Again
import LayeredConfig.Proofs.Fold.FileMeaning
import LayeredConfig.Proofs.Fold.Generators
import LayeredConfig.Proofs.Fold.Precedence
import LayeredConfig.Proofs.Fold.Required
import LayeredConfig.Proofs.Fold.Undeclared
import LayeredConfig.Proofs.Fragment.Survives
import LayeredConfig.Proofs.Parameters.Confined
