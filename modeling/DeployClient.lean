import DeployClient.Main
import DeployClient.Proofs.Exactness
import DeployClient.Proofs.Flattening
import DeployClient.Proofs.GivenUp
import DeployClient.Proofs.Rulings
import DeployClient.Proofs.Contents
import DeployClient.Proofs.IgnoreLines
import DeployClient.Proofs.Inside
import DeployClient.Proofs.Absorption
import DeployClient.Proofs.Interruption
import DeployClient.Proofs.Uploads
import DeployClient.Proofs.BuildContext
import DeployClient.Proofs.Credentials
import DeployClient.Proofs.LinkTargets
import DeployClient.Proofs.LocalArchives
import DeployClient.Proofs.ChangedFiles
import DeployClient.Proofs.ImpliedParents
import DeployClient.Proofs.Following
import DeployClient.Proofs.WalkRuns
import DeployClient.Proofs.Accounting
import DeployClient.Proofs.Verdicts
import DeployClient.Proofs.EnvironmentCredentials
import DeployClient.Proofs.ConfigurationFile
import DeployClient.Proofs.Endpoints
import DeployClient.Proofs.ProgressLines
import DeployClient.Proofs.BaseAddresses
